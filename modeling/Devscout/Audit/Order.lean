/-
# Devscout.Audit.Order -- what the report does not see

The records and the edges come in some order, and the report does not see it: its counts are
counts over a list, and its tables are sorted. Two things are left. The rows about false
positives are written in the order of the edges, and each lists its expected targets in the
order of the records. And an edge that several records vouch for is compared with the file of
the first of them only, so that the count of mismatches can depend on which is first.
-/

import Devscout.Audit.Balance
import Devscout.Lib.Distinct

namespace Devscout.Audit

open Lib

/-! ## The tables -/

instance : Std.Total rowLe where
  total a b := by
    rcases Nat.lt_trichotomy a.2 b.2 with hlt | heq | hgt
    · exact .inr (.inl hlt)
    · rcases le_total a.1 b.1 with hle | hle
      · exact .inl (.inr ⟨heq, hle⟩)
      · exact .inr (.inr ⟨heq.symm, hle⟩)
    · exact .inl (.inl hgt)

instance : IsTrans (Str × Nat) rowLe where
  trans a b c hab hbc := by
    rcases hab with hab | ⟨hab, hle⟩
    · rcases hbc with hbc | ⟨hbc, -⟩
      · exact .inl (by omega)
      · exact .inl (by omega)
    · rcases hbc with hbc | ⟨hbc, hle'⟩
      · exact .inl (by omega)
      · exact .inr ⟨by omega, le_trans hle hle'⟩

instance : Std.Antisymm rowLe where
  antisymm a b hab hba := by
    rcases hab with hab | ⟨hab, hle⟩
    · rcases hba with hba | ⟨hba, -⟩ <;> omega
    · rcases hba with hba | ⟨-, hle'⟩
      · omega
      · exact Prod.ext (le_antisymm hle hle') hab

/-- A sorted table has no order of its own. -/
theorem sorted_perm {rows rows' : List (Str × Nat)} (h : rows.Perm rows') : sorted rows = sorted rows' :=
  insertionSort_eq_of_perm rowLe h

/-! ## Verdicts -/

/-- Equal verdicts, but for what a first record decides and for the order of the evidence. -/
inductive Verdict.Same : Verdict → Verdict → Prop
  | unjudged : Same .unjudged .unjudged
  | hit (moved moved' : Bool) : Same (.hit moved) (.hit moved')
  | miss (class_ : FpClass) {evidence evidence' : List OracleRef} (h : evidence.Perm evidence') :
      Same (.miss class_ evidence) (.miss class_ evidence')

theorem Verdict.Same.count {v v' : Verdict} (h : v.Same v') (s : TierStats) (b : Bool) :
    s.count v b = s.count v' b := by
  rcases h with _ | _ | _ <;> rfl

/-- The counters do not see the order of two verdicts. -/
theorem count_comm (s : TierStats) (v v' : Verdict) (b b' : Bool) :
    (s.count v b).count v' b' = (s.count v' b').count v b := by
  rcases v with _ | moved | ⟨class_, evidence⟩ <;> rcases v' with _ | moved' | ⟨class_', evidence'⟩ <;>
    simp [TierStats.count, Nat.add_right_comm]

/-- Rows about one false positive that list the expected targets in different orders. -/
def FpSite.Same (a b : FpSite) : Prop :=
  { a with expected := [] } = { b with expected := [] } ∧ a.expected.Perm b.expected

theorem fpSite_same (e : EdgeRow) (class_ : FpClass) {evidence evidence' : List OracleRef}
    (h : evidence.Perm evidence') (b : Bool) : (FpSite.new e class_ evidence b).Same (FpSite.new e class_ evidence' b) :=
  ⟨rfl, foldl_new_perm ((h.filter fun r : OracleRef => !r.external).filterMap OracleRef.target)⟩

/-! ## Reordered inputs -/

/-- The inputs with other records and edges. -/
def Inputs.reorder (inp : Inputs) (records : List OracleRef) (edges : List EdgeRow) : Inputs :=
  { inp with records := records, edges := edges }

theorem get?_recordsBySite (records : List OracleRef) (site : Str × Nat) :
    (recordsBySite records).get? site =
      if records.filter (fun r => (r.file, r.startLine) = site) = [] then none
      else some (records.filter fun r => (r.file, r.startLine) = site) :=
  OrderedMap.get?_group _ records site

/-- What is read off the records of each site without their order. -/
theorem recordsBySite_perm {W : Type} {read : List OracleRef → W}
    (hread : ∀ recs recs' : List OracleRef, recs.Perm recs' → read recs = read recs')
    {records records' : List OracleRef} (h : records.Perm records') :
    ((recordsBySite records).mapValues read).entries.Perm ((recordsBySite records').mapValues read).entries := by
  unfold recordsBySite
  refine OrderedMap.gather_perm (fun r : OracleRef => (r.file, r.startLine)) (fun recs r => recs ++ [r]) []
    (fun recs recs' hperm => ?_) h
  rw [OrderedMap.foldl_append_singleton, OrderedMap.foldl_append_singleton, List.nil_append, List.nil_append]
  exact hread recs recs' hperm

/-- A table of lists holds nothing, or lists that are permutations of each other. -/
theorem get?_group_perm {K T : Type} [DecidableEq K] (key : T → K) {ts ts' : List T} (h : ts.Perm ts') (k : K) :
    ((OrderedMap.empty.gather key (fun acc t => acc ++ [t]) [] ts).get? k = none ∧
      (OrderedMap.empty.gather key (fun acc t => acc ++ [t]) [] ts').get? k = none) ∨
    ∃ group group', (OrderedMap.empty.gather key (fun acc t => acc ++ [t]) [] ts).get? k = some group ∧
      (OrderedMap.empty.gather key (fun acc t => acc ++ [t]) [] ts').get? k = some group' ∧
        group = ts.filter (fun t => key t = k) ∧ group' = ts'.filter (fun t => key t = k) ∧ group.Perm group' := by
  have hfilter : (ts.filter fun t => key t = k).Perm (ts'.filter fun t => key t = k) := h.filter _
  rw [OrderedMap.get?_group, OrderedMap.get?_group]
  by_cases hnil : ts.filter (fun t => key t = k) = []
  · have hnil' : ts'.filter (fun t => key t = k) = [] := by
      rw [hnil] at hfilter
      exact hfilter.nil_eq.symm
    rw [if_pos hnil, if_pos hnil']
    exact .inl ⟨rfl, rfl⟩
  · have hne' : ts'.filter (fun t => key t = k) ≠ [] := by
      intro hnil'
      rw [hnil'] at hfilter
      exact hnil hfilter.eq_nil
    rw [if_neg hnil, if_neg hne']
    exact .inr ⟨_, _, rfl, rfl, rfl, rfl, hfilter⟩

theorem evidenceFor_perm (e : EdgeRow) {recs recs' : List OracleRef} (h : recs.Perm recs') :
    (evidenceFor e recs).Perm (evidenceFor e recs') := by
  have hscoped := h.filter fun r => memberMatches e.member r.member
  unfold evidenceFor
  dsimp only
  rw [hscoped.isEmpty_eq]
  split
  · exact h
  · exact hscoped

section Reorder

variable (inp : Inputs) {rs : List OracleRef} {es : List EdgeRow} (hrs : rs.Perm inp.records)
  (hes : es.Perm inp.edges)

section Records

include hrs

theorem keptRecords_reorder : (keptRecords (inp.reorder rs es)).Perm (keptRecords inp) := hrs.filter _

/-- An edge is found to be the same, whatever the order of the records. -/
theorem judge_reorder (e : EdgeRow) : (judge (inp.reorder rs es) e).Same (judge inp e) := by
  unfold judge
  show Verdict.Same (if isUnjudgedDiscoveredEdge e inp.discoveredShapes = true then _ else _)
    (if isUnjudgedDiscoveredEdge e inp.discoveredShapes = true then _ else _)
  split
  · exact .unjudged
  · rcases get?_group_perm (fun r : OracleRef => (r.file, r.startLine))
      (@keptRecords_reorder inp rs es hrs) (e.fromFile, e.fromLine) with
      ⟨hnone, hnone'⟩ | ⟨recs, recs', hsome, hsome', -, -, hperm⟩
    · rw [bySite, bySite, recordsBySite, recordsBySite, hnone, hnone']
      exact .miss .noSite (List.Perm.refl [])
    · rw [bySite, bySite, recordsBySite, recordsBySite, hsome, hsome']
      dsimp only
      rcases hfind : recs.find? (vouches e) with _ | r
      · have hfind' : recs'.find? (vouches e) = none := by
          rw [List.find?_eq_none] at hfind ⊢
          exact fun r hr => hfind r (hperm.mem_iff.mpr hr)
        have hevidence := evidenceFor_perm e hperm
        rw [hfind']
        dsimp only
        rw [hevidence.all_eq]
        exact .miss _ hevidence
      · obtain ⟨hvouches, hmem⟩ : vouches e r = true ∧ r ∈ recs :=
          ⟨List.find?_some hfind, List.mem_of_find?_eq_some hfind⟩
        rcases hfind' : recs'.find? (vouches e) with _ | r'
        · exact absurd hvouches (List.find?_eq_none.mp hfind' r (hperm.mem_iff.mp hmem))
        · exact .hit _ _

end Records

/-- What structure says of an edge is a matter of the units and the definitions. -/
theorem structuralOf_reorder (e : EdgeRow) : structuralOf (inp.reorder rs es) e = structuralOf inp e := rfl

end Reorder

/-! ## The loop, field by field -/

def Verdict.isMiss : Verdict → Bool
  | .miss .. => true
  | _ => false

theorem Verdict.Same.isMiss {v v' : Verdict} (h : v.Same v') : v.isMiss = v'.isMiss := by
  rcases h with _ | _ | _ <;> rfl

/-- The row about an edge, when rows are collected. -/
def fpRow (inp : Inputs) (e : EdgeRow) : Option FpSite :=
  match judge inp e with
  | .miss class_ evidence =>
      if inp.collectFpSites then some (FpSite.new e class_ evidence ((structuralOf inp e).getD false)) else none
  | _ => none

section Loop

variable (inp : Inputs) (edges : List EdgeRow) (s : Ledger)

/-- The counters after an edge. -/
def tierStep (tiers : Tier → TierStats) (e : EdgeRow) : Tier → TierStats :=
  Function.update tiers e.tier ((tiers e.tier).count (judge inp e) ((structuralOf inp e).getD false))

theorem foldl_tiers : (edges.foldl (scoreEdge inp) s).tiers = edges.foldl (tierStep inp) s.tiers := by
  induction edges generalizing s with
  | nil => rfl
  | cons e edges ih => rw [List.foldl_cons, List.foldl_cons, ih, scoreEdge_tiers, tierStep]

theorem foldl_mismatch : (edges.foldl (scoreEdge inp) s).mismatch =
    s.mismatch + edges.countP fun e => judge inp e == .hit true := by
  induction edges generalizing s with
  | nil => rfl
  | cons e edges ih =>
      have hstep : (scoreEdge inp s e).mismatch = s.mismatch + if judge inp e == .hit true then 1 else 0 := by
        unfold scoreEdge
        rcases judge inp e with _ | _ | _ <;> simp
      rw [List.foldl_cons, ih, hstep, List.countP_cons]
      omega

theorem foldl_fpTargets : (edges.foldl (scoreEdge inp) s).fpTargets =
    s.fpTargets.tally ((edges.filter fun e => (judge inp e).isMiss).map fun e => shortName e.to_) := by
  induction edges generalizing s with
  | nil => rfl
  | cons e edges ih =>
      rw [List.foldl_cons, ih, List.filter_cons]
      unfold scoreEdge
      rcases judge inp e with _ | _ | _ <;> rfl

theorem foldl_fpRows : (edges.foldl (scoreEdge inp) s).fpRows = s.fpRows ++ edges.filterMap (fpRow inp) := by
  induction edges generalizing s with
  | nil => exact (List.append_nil _).symm
  | cons e edges ih =>
      have hstep : (scoreEdge inp s e).fpRows = s.fpRows ++ (fpRow inp e).toList := by
        unfold scoreEdge fpRow
        rcases judge inp e with _ | _ | ⟨class_, evidence⟩
        · simp
        · simp
        · dsimp only
          split <;> simp
      rw [List.foldl_cons, ih, hstep, List.append_assoc, List.filterMap_cons]
      rcases fpRow inp e with _ | row <;> rfl

/-- The counters do not see the order of two edges. -/
theorem tierStep_comm (tiers : Tier → TierStats) (e e' : EdgeRow) :
    tierStep inp (tierStep inp tiers e) e' = tierStep inp (tierStep inp tiers e') e := by
  unfold tierStep
  by_cases h : e.tier = e'.tier
  · rw [h, Function.update_self, Function.update_self, Function.update_idem, Function.update_idem, count_comm]
  · rw [Function.update_of_ne (Ne.symm h), Function.update_of_ne h, Function.update_comm h]

end Loop

section Reorder

variable (inp : Inputs) {rs : List OracleRef} {es : List EdgeRow} (hrs : rs.Perm inp.records)
  (hes : es.Perm inp.edges)

include hes in
theorem keptEdges_reorder : (keptEdges (inp.reorder rs es)).Perm (keptEdges inp) := hes.filter _

include hrs hes

theorem ledger_tiers_reorder : (ledger (inp.reorder rs es)).tiers = (ledger inp).tiers := by
  have hstep : tierStep (inp.reorder rs es) = tierStep inp := by
    funext tiers e
    unfold tierStep
    rw [(judge_reorder inp hrs e).count, structuralOf_reorder]
  rw [ledger, ledger, foldl_tiers, foldl_tiers, hstep]
  exact (keptEdges_reorder inp hes).foldl_eq' (fun e _ e' _ tiers => tierStep_comm inp tiers e e') _

theorem ledger_fpTargets_reorder :
    (ledger (inp.reorder rs es)).fpTargets.entries.Perm (ledger inp).fpTargets.entries := by
  have hmiss : (fun e => (judge (inp.reorder rs es) e).isMiss) = fun e => (judge inp e).isMiss :=
    funext fun e => (judge_reorder inp hrs e).isMiss
  rw [ledger, ledger, foldl_fpTargets, foldl_fpTargets, hmiss]
  exact OrderedMap.tally_perm (((keptEdges_reorder inp hes).filter _).map _)

omit hes in
/-- Rows about false positives, one for one. -/
theorem fpRow_reorder (edges : List EdgeRow) :
    List.Forall₂ FpSite.Same (edges.filterMap (fpRow (inp.reorder rs es))) (edges.filterMap (fpRow inp)) := by
  have hrow (e : EdgeRow) : Option.Rel FpSite.Same (fpRow (inp.reorder rs es) e) (fpRow inp e) := by
    have hsame := @judge_reorder inp rs es hrs e
    unfold fpRow
    generalize judge (inp.reorder rs es) e = v at hsame ⊢
    generalize judge inp e = v' at hsame ⊢
    rcases hsame with _ | _ | ⟨class_, hperm⟩
    · exact .none
    · exact .none
    · show Option.Rel FpSite.Same (if inp.collectFpSites = true then _ else none)
        (if inp.collectFpSites = true then _ else none)
      split
      · exact .some (fpSite_same e class_ hperm _)
      · exact .none
  induction edges with
  | nil => exact .nil
  | cons e edges ih =>
      rw [List.filterMap_cons, List.filterMap_cons]
      have hrel := hrow e
      generalize fpRow (inp.reorder rs es) e = row at hrel ⊢
      generalize fpRow inp e = row' at hrel ⊢
      rcases hrel with hsame | _
      · exact .cons hsame ih
      · exact ih

/-- The same rows, in the order of the edges. -/
theorem ledger_fpRows_reorder : ∃ rows, List.Forall₂ FpSite.Same (ledger (inp.reorder rs es)).fpRows rows ∧
    rows.Perm (ledger inp).fpRows := by
  rw [ledger, ledger, foldl_fpRows, foldl_fpRows]
  exact ⟨_, fpRow_reorder inp hrs _, (keptEdges_reorder inp hes).filterMap _⟩

omit hes hrs

/-- A record that vouches for an edge from its own line. -/
def Vouches (e : EdgeRow) (r : OracleRef) : Prop :=
  r.file = e.fromFile ∧ r.startLine = e.fromLine ∧ vouches e r = true

/-- Records that vouch for one edge have their target in one file. -/
def Inputs.Agree (inp : Inputs) : Prop :=
  ∀ e ∈ inp.edges, ∀ r ∈ inp.records, ∀ r' ∈ inp.records, Vouches e r → Vouches e r' → r.targetFile = r'.targetFile

theorem judge_hit {e : EdgeRow} {moved : Bool} (h : judge inp e = .hit moved) :
    ∃ r ∈ inp.records, Vouches e r ∧ moved = r.targetFile.any (· != e.toFile) := by
  unfold judge at h
  split at h
  · cases h
  split at h
  · cases h
  rename_i recs hget
  split at h
  · rename_i r hfind
    cases h
    rw [bySite, get?_recordsBySite] at hget
    split at hget
    · cases hget
    · cases hget
      have hmem := List.mem_filter.mp (List.mem_of_find?_eq_some hfind)
      have hsite : (r.file, r.startLine) = (e.fromFile, e.fromLine) := of_decide_eq_true hmem.2
      cases Prod.mk.inj hsite with
      | intro hfile hline =>
          exact ⟨r, (List.mem_filter.mp hmem.1).1, ⟨hfile, hline, List.find?_some hfind⟩, rfl⟩
  · cases h

include hes hrs

theorem ledger_mismatch_reorder (h : rs = inp.records ∨ inp.Agree) :
    (ledger (inp.reorder rs es)).mismatch = (ledger inp).mismatch := by
  have hhit : ∀ e ∈ keptEdges (inp.reorder rs es),
      (judge (inp.reorder rs es) e == .hit true) = (judge inp e == .hit true) := by
    intro e he
    rcases h with rfl | hagree
    · rfl
    · have hin : e ∈ inp.edges := hes.mem_iff.mp (List.mem_filter.mp he).1
      have hsame := @judge_reorder inp rs es hrs e
      have hleft := @judge_hit (inp.reorder rs es) e
      have hright := @judge_hit inp e
      generalize judge (inp.reorder rs es) e = v at hsame hleft ⊢
      generalize judge inp e = v' at hsame hright ⊢
      rcases hsame with _ | ⟨moved, moved'⟩ | _
      · rfl
      · obtain ⟨r, hr, hvouches, rfl⟩ := hleft rfl
        obtain ⟨r', hr', hvouches', rfl⟩ := hright rfl
        rw [hagree e hin r (hrs.mem_iff.mp hr) r' hr' hvouches hvouches']
      · rfl
  rw [ledger, ledger, foldl_mismatch, foldl_mismatch, List.countP_congr fun e he => by rw [hhit e he]]
  exact congrArg _ ((keptEdges_reorder inp hes).countP_eq _)

/-! ## Sites and recall -/

omit hrs in
theorem siteHit_reorder (tierOk : Tier → Bool) : siteHit (inp.reorder rs es) tierOk = siteHit inp tierOk := by
  funext r
  unfold siteHit edgesBySite
  rcases get?_group_perm (fun e : EdgeRow => (e.fromFile, e.fromLine)) (keptEdges_reorder inp hes)
    (r.file, r.startLine) with ⟨hnone, hnone'⟩ | ⟨group, group', hsome, hsome', -, -, hperm⟩
  · rw [hnone, hnone']
  · rw [hsome, hsome', Option.any_some, Option.any_some]
    exact hperm.any_eq

omit hes in
theorem known_reorder (shape : Str) : (known (inp.reorder rs es) shape).Perm (known inp shape) :=
  (keptRecords_reorder inp hrs).filter _

theorem countP_siteHit_reorder (tierOk : Tier → Bool) :
    (dRecords (inp.reorder rs es)).countP (siteHit (inp.reorder rs es) tierOk) =
      (dRecords inp).countP (siteHit inp tierOk) := by
  rw [siteHit_reorder inp hes]
  exact (known_reorder inp hrs access).countP_eq _

theorem receiver_reorder (kind : String) : receiver (inp.reorder rs es) kind = receiver inp kind := by
  have hperm := (@known_reorder inp rs es hrs access).filter fun r : OracleRef => r.receiverKind == kind.toList
  unfold receiver dRecords
  dsimp only
  rw [hperm.isEmpty_eq, hperm.length_eq, siteHit_reorder inp hes, hperm.countP_eq]

theorem missed_reorder : sorted (missed (inp.reorder rs es)).entries = sorted (missed inp).entries := by
  refine sorted_perm (OrderedMap.tally_perm (List.Perm.filterMap _ ?_))
  rw [siteHit_reorder inp hes]
  exact (known_reorder inp hrs access).filter _

theorem silent_reorder (leak : Bool) : silent (inp.reorder rs es) leak = silent inp leak := by
  have hsites (i : Inputs) : silent i leak =
      ((accessBySite i).mapValues fun recs => recs.all OracleRef.external).entries.countP fun e =>
        e.2 && ((edgesBySite i).get? e.1).isSome == leak := by
    unfold silent OrderedMap.mapValues
    rw [List.countP_map]
    rfl
  have hperm : ((accessBySite (inp.reorder rs es)).mapValues fun recs => recs.all OracleRef.external).entries.Perm
      ((accessBySite inp).mapValues fun recs => recs.all OracleRef.external).entries :=
    recordsBySite_perm (fun _ _ h => h.all_eq) ((keptRecords_reorder inp hrs).filter _)
  have hedge (site : Str × Nat) : ((edgesBySite (inp.reorder rs es)).get? site).isSome =
      ((edgesBySite inp).get? site).isSome := by
    unfold edgesBySite
    rcases get?_group_perm (fun e : EdgeRow => (e.fromFile, e.fromLine)) (keptEdges_reorder inp hes) site with
      ⟨hnone, hnone'⟩ | ⟨group, group', hsome, hsome', -⟩
    · rw [hnone, hnone']
    · rw [hsome, hsome']
      rfl
  rw [hsites, hsites, hperm.countP_eq]
  simp only [hedge]

omit hes in
theorem bySite_size_reorder : (bySite (inp.reorder rs es)).size = (bySite inp).size := by
  have hperm : ((bySite (inp.reorder rs es)).mapValues fun _ => ()).entries.Perm
      ((bySite inp).mapValues fun _ => ()).entries :=
    recordsBySite_perm (fun _ _ _ => rfl) (keptRecords_reorder inp hrs)
  have hlength := hperm.length_eq
  unfold OrderedMap.mapValues at hlength
  rwa [List.length_map, List.length_map] at hlength

omit hes in
theorem unknown_reorder : sorted ((unknownByKind (inp.reorder rs es)).mapValues List.length).entries =
    sorted ((unknownByKind inp).mapValues List.length).entries := by
  refine sorted_perm (OrderedMap.gather_perm _ _ _ (fun ts ts' h => ?_) ?_)
  · -- a set of targets has as many in any order
    have hset (ts : List (Str × Str)) : ts.foldl (fun acc e => if e.2 ∈ acc then acc else acc ++ [e.2]) [] =
        (ts.map Prod.snd).foldl (fun acc t => if t ∈ acc then acc else acc ++ [t]) [] := by
      rw [List.foldl_map]
    rw [hset, hset]
    exact (foldl_new_perm (h.map Prod.snd)).length_eq
  · exact ((keptRecords_reorder inp hrs).filter _).filterMap _

omit hrs in
theorem fanout_reorder :
    fanoutOf (OrderedMap.empty.tally ((keptEdges (inp.reorder rs es)).map fun e => (e.fromFile, e.fromLine))) =
      fanoutOf (OrderedMap.empty.tally ((keptEdges inp).map fun e => (e.fromFile, e.fromLine))) := by
  have hperm := OrderedMap.tally_perm ((@keptEdges_reorder inp rs es hes).map fun e => (e.fromFile, e.fromLine))
  unfold fanoutOf
  rw [hperm.countP_eq, hperm.countP_eq, hperm.countP_eq, hperm.countP_eq]

/-- The report without what the order may show in. -/
def AuditReport.counted (r : AuditReport) : AuditReport := { r with partialFileMismatch := 0, fpSites := [] }

/-- Every count and every table of the report is the same in any order. -/
theorem score_reorder : (score (inp.reorder rs es)).counted = (score inp).counted := by
  have hmarks : ((keptEdges (inp.reorder rs es)).filterMap (structuralOf inp)).Perm
      ((keptEdges inp).filterMap (structuralOf inp)) := (keptEdges_reorder inp hes).filterMap _
  have hstructural : structuralOf (inp.reorder rs es) = structuralOf inp := rfl
  unfold AuditReport.counted score
  dsimp only
  rw [hstructural, hmarks.countP_eq, hmarks.length_eq, (@keptRecords_reorder inp rs es hrs).length_eq,
    (@keptRecords_reorder inp rs es hrs).countP_eq, bySite_size_reorder inp hrs, silent_reorder inp hrs hes,
    silent_reorder inp hrs hes, ledger_tiers_reorder inp hrs hes, countP_siteHit_reorder inp hrs hes,
    countP_siteHit_reorder inp hrs hes, countP_siteHit_reorder inp hrs hes, fanout_reorder inp hes,
    unknown_reorder inp hrs, sorted_perm (ledger_fpTargets_reorder inp hrs hes), missed_reorder inp hrs hes,
    (@known_reorder inp rs es hrs _).length_eq, (@known_reorder inp rs es hrs _).length_eq]
  congr 1
  · exact hrs.countP_eq _
  · exact (@known_reorder inp rs es hrs access).length_eq
  · exact List.map_congr_left fun kind _ => by rw [receiver_reorder inp hrs hes]
  · exact hes.countP_eq _

end Reorder

/-! ## The ledger -/

/-- **The ledger balances and ignores order.** The rows about false positives come in the order of
the edges; the count of mismatches ignores the order of the edges, and that of the records as long
as those that vouch for one edge have their target in one file. -/
theorem score_ledger (inp : Inputs) :
    (score inp).Balanced inp ∧
      ∀ (rs : List OracleRef) (es : List EdgeRow), rs.Perm inp.records → es.Perm inp.edges →
        (score (inp.reorder rs es)).counted = (score inp).counted ∧
          (rs = inp.records ∨ inp.Agree →
            (score (inp.reorder rs es)).partialFileMismatch = (score inp).partialFileMismatch) ∧
          ∃ rows, List.Forall₂ FpSite.Same (score (inp.reorder rs es)).fpSites rows ∧
            rows.Perm (score inp).fpSites :=
  ⟨score_balanced inp, fun _ _ hrs hes => ⟨score_reorder inp hrs hes, ledger_mismatch_reorder inp hrs hes,
    ledger_fpRows_reorder inp hrs hes⟩⟩

/-- Two overloads of one method, declared in the two files of a partial class and called on one line. -/
def overloadCalls : Inputs where
  root := "/repo".toList
  graphDefs := [⟨"Ns.Order".toList, "A.cs".toList, false⟩]
  oracleDefs := []
  edges := [⟨"F.cs".toList, 7, "Ns.Order".toList, "A.cs".toList, .precise, some "Save".toList⟩]
  records := [
    ⟨"F.cs".toList, 7, access, "ident".toList, "Save".toList, some "Ns.Order".toList, some "class".toList,
      some "A.cs".toList, false, false⟩,
    ⟨"F.cs".toList, 7, access, "ident".toList, "Save".toList, some "Ns.Order".toList, some "class".toList,
      some "B.cs".toList, false, false⟩]
  units := []
  universe_ := ["F.cs".toList, "A.cs".toList, "B.cs".toList]
  lane := "syntax".toList
  discoveredShapes := OrderedMap.empty
  collectFpSites := false

/-- The count of mismatches sees which of the two records is first. -/
theorem mismatch_order :
    overloadCalls.records.reverse.Perm overloadCalls.records ∧
      (score overloadCalls).partialFileMismatch = 0 ∧
        (score (overloadCalls.reorder overloadCalls.records.reverse overloadCalls.edges)).partialFileMismatch = 1 := by
  refine ⟨List.reverse_perm _, ?_, ?_⟩ <;> decide +kernel

/-- The edges alone in any order. -/
theorem score_ledger_overloads :
    (score (overloadCalls.reorder overloadCalls.records overloadCalls.edges.reverse)).partialFileMismatch =
      (score overloadCalls).partialFileMismatch :=
  ((score_ledger overloadCalls).2 overloadCalls.records overloadCalls.edges.reverse (List.Perm.refl _)
    (List.reverse_perm _)).2.1 (.inl rfl)

end Devscout.Audit
