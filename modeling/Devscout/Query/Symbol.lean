/-
# Devscout.Query.Symbol -- from what is asked to a definition

A query is an id, or a name, or the end of a qualified one. The ladder tries them in this
order, and the first step that knows a definition which is not local to its file answers: with
the id of the definition if it is the only one, with a refusal that lists the ids of all
otherwise. A refusal numbers its rows, and a number picks one of them.

What is picked is an id, and an id is read back as the last definition that carries it. A
generic type and its namesake without parameters carry one id, so of the two only the later
one can be picked, and the refusal names it twice.
-/

import Devscout.Query.Refs
import Devscout.Lib.Text
import Mathlib

namespace Devscout.Query

open Lib

/-! ## The artifact -/

structure DefSite where
  file : Str
  line : Nat
  deriving DecidableEq

/-- A definition as the artifact records it. -/
structure DefRow where
  id : Str
  name : Str
  kind : Str
  file : Str
  line : Nat
  endLine : Nat := 0
  alsoIn : List DefSite := []
  testMethods : List Str := []
  isLocal : Bool := false
  deriving DecidableEq

/-- The part of it that the tables of edges are read with. -/
def DefRow.toDef (d : DefRow) : Def :=
  ⟨d.id, d.name, d.kind, d.file, d.alsoIn.map DefSite.file, d.testMethods⟩

section Ladder

variable (defs : List DefRow)

/-- The positions of the definitions that pass a test, in order. -/
def positions (p : DefRow → Bool) : List Nat :=
  (List.range defs.length).filter fun i => defs[i]?.any p

/-- `by_id`: the last definition filed under an id. -/
def byId (id : Str) : Option Nat := (positions defs fun d => d.id == id).getLast?

/-- The id of the definition at a position. -/
def idAt (i : Nat) : Str := (defs[i]?.map DefRow.id).getD []

def isLocalAt (i : Nat) : Bool := defs[i]?.any DefRow.isLocal

inductive Resolution where
  | resolved (id : Str)
  | ambiguous (ids : List Str)
  | notFound
  deriving DecidableEq

/-- The ids of some positions, sorted. -/
def sortedIds (candidates : List Nat) : List Str :=
  (candidates.map (idAt defs)).insertionSort (· ≤ ·)

/-- `non_local_step`: a step answers when it knows a definition that is not local; where it
knows several, the local ones are listed with them. -/
def nonLocalStep (candidates : List Nat) : Option Resolution :=
  match candidates.filter fun i => !isLocalAt defs i with
  | [] => none
  | [i] => some (.resolved (idAt defs i))
  | _ => some (.ambiguous (sortedIds defs candidates))

/-- `local_step`. -/
def localStep (candidates : List Nat) : Option Resolution :=
  match candidates.filter (isLocalAt defs) with
  | [] => none
  | [i] => some (.resolved (idAt defs i))
  | found => some (.ambiguous (sortedIds defs found))

/-- `strip_repeat_suffix`: a path without a trailing `-N`. -/
def stripRepeatSuffix (path : Str) : Str :=
  match Text.rsplit '-' path with
  | some (head, digits) =>
      if !digits.isEmpty && digits.all fun c => '0' ≤ c && c ≤ '9' then head else path
  | none => path

example : stripRepeatSuffix ['a', '-', '1', '2'] = ['a'] ∧ stripRepeatSuffix ['a', '-', 'b'] = ['a', '-', 'b'] := by
  decide +kernel

/-- The path of a Rust item, after the last `#` of its id, is the query or ends in it. -/
def isPathOf (query : Str) (d : DefRow) : Bool :=
  match Text.rsplit '#' d.id with
  | some (_, path) =>
      [path, stripRepeatSuffix path].any fun p =>
        p == query || ("::".toList ++ query).isSuffixOf p
  | none => false

/-- The steps below the id: the name, the name in lower case, the end of a dotted id, the end
of a path. -/
def ladder (lower : Str → Str) (query : Str) : List (List Nat) :=
  [positions defs fun d => d.name == query,
    positions defs fun d => lower d.name == lower query,
    if '.' ∈ query then positions defs fun d => ('.' :: query).isSuffixOf d.id else [],
    if "::".toList <:+: query then positions defs (isPathOf query) else []]

/-- `resolve_symbol`; `lower` is the lower case of a text. -/
def resolveSymbol (lower : Str → Str) (query : Str) : Resolution :=
  if (byId defs query).isSome then .resolved query
  else ((ladder defs lower query).findSome? (nonLocalStep defs)).getD .notFound

/-- `resolve_local_symbol`. -/
def resolveLocalSymbol (lower : Str → Str) (query : Str) : Resolution :=
  (([positions defs fun d => d.name == query,
      positions defs fun d => lower d.name == lower query,
      if '.' ∈ query then
        positions defs fun d => d.isLocal && ('.' :: query).isSuffixOf d.id
      else []] : List (List Nat)).findSome? (localStep defs)).getD .notFound

/-! ## Picking -/

/-- `candidate_def`; a refusal lists no id that nothing carries. -/
def candidateDef (id : Str) : Option DefRow := (byId defs id).bind fun i => defs[i]?

/-- `type_candidate_row`. -/
def typeCandidateRow (id : Str) (d : DefRow) : Str :=
  id ++ "  ".toList ++ d.file ++ [':'] ++ (Nat.repr d.line).toList ++ "  ".toList ++ d.kind

/-- `type_candidates_in_refusal_order`. -/
def typeCandidatesInRefusalOrder (ids : List Str) : Option (List Str) :=
  (ids.mapM fun id => (candidateDef defs id).map fun d => (typeCandidateRow id d, id)).map
    fun rows => (rows.insertionSort fun a b => a.1 ≤ b.1).map Prod.snd

end Ladder

/-! ## What is filed under an id -/

section Positions

variable {defs : List DefRow} {p : DefRow → Bool} {i : Nat} {id : Str}

theorem mem_positions : i ∈ positions defs p ↔ ∃ d, defs[i]? = some d ∧ p d = true := by
  unfold positions
  rw [List.mem_filter, List.mem_range, Option.any_eq_true]
  refine ⟨fun h => h.2, ?_⟩
  rintro ⟨d, hd, hp⟩
  exact ⟨(List.getElem?_eq_some_iff.mp hd).1, d, hd, hp⟩

theorem positions_lt (h : i ∈ positions defs p) : i < defs.length := by
  obtain ⟨d, hd, -⟩ := mem_positions.mp h
  exact (List.getElem?_eq_some_iff.mp hd).1

theorem nodup_positions : (positions defs p).Nodup := List.nodup_range.filter _

theorem idAt_eq {d : DefRow} (h : defs[i]? = some d) : idAt defs i = d.id := by
  rw [idAt, h]
  rfl

/-- What is filed under an id carries it. -/
theorem idAt_of_byId (h : byId defs id = some i) : i < defs.length ∧ idAt defs i = id := by
  obtain ⟨d, hd, heq⟩ := mem_positions.mp (List.mem_of_getLast? h)
  exact ⟨(List.getElem?_eq_some_iff.mp hd).1, (idAt_eq hd).trans (beq_iff_eq.mp heq)⟩

theorem byId_isSome_iff : (byId defs id).isSome ↔ ∃ i < defs.length, idAt defs i = id := by
  constructor
  · intro h
    obtain ⟨i, hi⟩ := Option.isSome_iff_exists.mp h
    exact ⟨i, idAt_of_byId hi⟩
  · rintro ⟨i, hi, rfl⟩
    have hmem : i ∈ positions defs fun d => d.id == idAt defs i := by
      refine mem_positions.mpr ⟨defs[i], List.getElem?_eq_getElem hi, ?_⟩
      rw [idAt_eq (List.getElem?_eq_getElem hi)]
      exact beq_self_eq_true _
    rw [byId, Option.isSome_iff_ne_none, Ne, List.getLast?_eq_none_iff]
    exact List.ne_nil_of_mem hmem

/-- Filed under its id is the last definition that carries it. -/
theorem byId_eq_some_iff (hi : i < defs.length) :
    byId defs (idAt defs i) = some i ↔ ∀ j < defs.length, idAt defs j = idAt defs i → j ≤ i := by
  have hcarries : ∀ j, j ∈ positions defs (fun d => d.id == idAt defs i) ↔
      j < defs.length ∧ idAt defs j = idAt defs i := by
    intro j
    rw [mem_positions]
    constructor
    · rintro ⟨d, hd, heq⟩
      exact ⟨(List.getElem?_eq_some_iff.mp hd).1, (idAt_eq hd).trans (beq_iff_eq.mp heq)⟩
    · rintro ⟨hj, heq⟩
      have hd := List.getElem?_eq_getElem hj
      exact ⟨defs[j], hd, beq_iff_eq.mpr ((idAt_eq hd).symm.trans heq)⟩
  have hsorted : (positions defs fun d => d.id == idAt defs i).Pairwise (· < ·) :=
    List.pairwise_lt_range.filter _
  unfold byId
  constructor
  · intro hlast j hj heq
    obtain ⟨before, hsplit⟩ := List.getLast?_eq_some_iff.mp hlast
    have hmem := (hcarries j).mpr ⟨hj, heq⟩
    rw [hsplit] at hmem hsorted
    rcases List.mem_append.mp hmem with hbefore | hself
    · exact Nat.le_of_lt ((List.pairwise_append.mp hsorted).2.2 j hbefore i (List.mem_singleton_self i))
    · exact Nat.le_of_eq (List.mem_singleton.mp hself)
  · intro hlater
    have hmem := (hcarries i).mpr ⟨hi, rfl⟩
    obtain ⟨before, after, hsplit⟩ := List.append_of_mem hmem
    -- what followed would carry the id and stand later
    cases after with
    | nil => rw [hsplit, List.getLast?_append, List.getLast?_singleton, Option.some_or]
    | cons j after =>
        rw [hsplit] at hsorted
        have hlt : i < j :=
          (List.pairwise_cons.mp (List.pairwise_append.mp hsorted).2.1).1 j List.mem_cons_self
        obtain ⟨hj, heq⟩ := (hcarries j).mp (by rw [hsplit]; simp)
        exact absurd (hlater j hj heq) (Nat.not_le.mpr hlt)

/-- The index reads an id back as what is filed under it. -/
theorem findDef_eq (edges : List Edge) (unitIsTest : Str → Bool) (opts : IndexOptions) (id : Str) :
    (loadGraphIndexWith ⟨defs.map DefRow.toDef, edges, unitIsTest⟩ opts).findDef id =
      (candidateDef defs id).map DefRow.toDef := by
  show (defs.map DefRow.toDef).reverse.find? (fun d => d.id == id) = _
  rw [← List.map_reverse, List.find?_map]
  refine congrArg (Option.map DefRow.toDef) ?_
  unfold candidateDef
  cases hid : byId defs id with
  | none =>
      refine List.find?_eq_none.mpr fun d hd heq => ?_
      obtain ⟨i, hi, rfl⟩ := List.getElem_of_mem (List.mem_reverse.mp hd)
      have hsome := byId_isSome_iff.mpr ⟨i, hi,
        (idAt_eq (List.getElem?_eq_getElem hi)).trans (beq_iff_eq.mp heq)⟩
      rw [hid] at hsome
      cases hsome
  | some i =>
      obtain ⟨hi, rfl⟩ := idAt_of_byId hid
      have hlast := (byId_eq_some_iff hi).mp hid
      rw [Option.bind_some, List.getElem?_eq_getElem hi]
      refine List.find?_eq_some_iff_append.mpr ⟨?_, (defs.drop (i + 1)).reverse,
        (defs.take i).reverse, ?_, ?_⟩
      · exact beq_iff_eq.mpr (idAt_eq (List.getElem?_eq_getElem hi)).symm
      · rw [← List.singleton_append, ← List.append_assoc, ← List.reverse_singleton,
          ← List.reverse_append, ← List.reverse_append, List.singleton_append,
          List.getElem_cons_drop, List.take_append_drop]
      · intro d hd
        obtain ⟨k, hk, rfl⟩ := List.getElem_of_mem (List.mem_reverse.mp hd)
        rw [List.length_drop] at hk
        rw [List.getElem_drop, Bool.not_eq_true', ← Bool.not_eq_true]
        intro heq
        have hle := hlast (i + 1 + k) (by omega)
          ((idAt_eq (List.getElem?_eq_getElem _)).trans (beq_iff_eq.mp heq))
        omega

end Positions

/-! ## Refusals -/

section Refusals

variable (defs : List DefRow) (lower : Str → Str) (query : Str)

/-- The candidates of the first step that knows a definition which is not local. -/
def refusedCandidates : List Nat :=
  ((ladder defs lower query).find? fun c => c.any fun i => !isLocalAt defs i).getD []

/-- The query is refused: it is no id, and the step knows two such definitions. -/
def RefusedQuery : Prop :=
  byId defs query = none ∧
    2 ≤ ((refusedCandidates defs lower query).filter fun i => !isLocalAt defs i).length

variable {defs lower query}

theorem nonLocalStep_eq_none_iff {c : List Nat} :
    nonLocalStep defs c = none ↔ c.any (fun i => !isLocalAt defs i) = false := by
  unfold nonLocalStep
  rw [List.any_eq_false]
  constructor
  · intro h i hi hlocal
    have hmem : i ∈ c.filter fun i => !isLocalAt defs i := List.mem_filter.mpr ⟨hi, hlocal⟩
    split at h
    · rename_i hnil
      exact List.not_mem_nil (hnil ▸ hmem)
    · cases h
    · cases h
  · intro h
    rw [List.filter_eq_nil_iff.mpr h]

/-- The ladder's answer is that of the step of the refusal. -/
theorem findSome?_nonLocalStep (steps : List (List Nat)) :
    steps.findSome? (nonLocalStep defs) =
      (steps.find? fun c => c.any fun i => !isLocalAt defs i).bind (nonLocalStep defs) := by
  induction steps with
  | nil => rfl
  | cons c steps ih =>
      rw [List.findSome?_cons, List.find?_cons]
      cases hany : c.any fun i => !isLocalAt defs i with
      | false =>
          rw [nonLocalStep_eq_none_iff.mpr hany]
          exact ih
      | true =>
          cases hstep : nonLocalStep defs c with
          | none =>
              rw [nonLocalStep_eq_none_iff.mp hstep] at hany
              cases hany
          | some r => exact hstep.symm

theorem resolveSymbol_eq_ambiguous_iff {ids : List Str} :
    resolveSymbol defs lower query = .ambiguous ids ↔
      RefusedQuery defs lower query ∧ ids = sortedIds defs (refusedCandidates defs lower query) := by
  unfold resolveSymbol RefusedQuery refusedCandidates
  rw [findSome?_nonLocalStep]
  by_cases hid : (byId defs query).isSome
  · rw [if_pos hid]
    refine iff_of_false (by simp) ?_
    rintro ⟨⟨hnone, -⟩, -⟩
    rw [hnone] at hid
    cases hid
  · rw [if_neg hid, Option.not_isSome_iff_eq_none.mp hid]
    cases (ladder defs lower query).find? fun c => c.any fun i => !isLocalAt defs i with
    | none => exact iff_of_false (by simp) (by simp)
    | some c =>
        rw [Option.bind_some, Option.getD_some]
        unfold nonLocalStep
        rcases hfound : c.filter fun i => !isLocalAt defs i with _ | ⟨i, _ | ⟨j, rest⟩⟩
        · exact iff_of_false (by simp) (by simp)
        · exact iff_of_false (by simp) (by simp)
        · refine ⟨fun h => ⟨⟨rfl, by simp⟩, ?_⟩, fun h => by rw [h.2]; rfl⟩
          exact (Resolution.ambiguous.inj h).symm

/-- What a step knows are different definitions of the graph. -/
theorem ladder_spec {c : List Nat} (hc : c ∈ ladder defs lower query) :
    c.Nodup ∧ ∀ i ∈ c, i < defs.length := by
  simp only [ladder, List.mem_cons, List.not_mem_nil, or_false] at hc
  rcases hc with rfl | rfl | rfl | rfl
  · exact ⟨nodup_positions, fun _ => positions_lt⟩
  · exact ⟨nodup_positions, fun _ => positions_lt⟩
  · split_ifs
    · exact ⟨nodup_positions, fun _ => positions_lt⟩
    · exact ⟨List.nodup_nil, fun _ h => absurd h List.not_mem_nil⟩
  · split_ifs
    · exact ⟨nodup_positions, fun _ => positions_lt⟩
    · exact ⟨List.nodup_nil, fun _ h => absurd h List.not_mem_nil⟩

theorem refusedCandidates_spec :
    (refusedCandidates defs lower query).Nodup ∧
      ∀ i ∈ refusedCandidates defs lower query, i < defs.length := by
  unfold refusedCandidates
  cases hfind : (ladder defs lower query).find? fun c => c.any fun i => !isLocalAt defs i with
  | none => exact ⟨List.nodup_nil, fun _ h => absurd h List.not_mem_nil⟩
  | some c => exact ladder_spec (List.mem_of_find?_eq_some hfind)

/-- What the ladder resolves to is carried by a definition. -/
theorem byId_of_resolveSymbol {id : Str} (h : resolveSymbol defs lower query = .resolved id) :
    (byId defs id).isSome := by
  unfold resolveSymbol at h
  by_cases hid : (byId defs query).isSome
  · rw [if_pos hid] at h
    rwa [← Resolution.resolved.inj h]
  · rw [if_neg hid] at h
    cases hstep : (ladder defs lower query).findSome? (nonLocalStep defs) with
    | none =>
        rw [hstep] at h
        cases h
    | some r =>
        rw [hstep, Option.getD_some] at h
        subst h
        obtain ⟨c, hc, hanswer⟩ := List.exists_of_findSome?_eq_some hstep
        unfold nonLocalStep at hanswer
        split at hanswer
        · cases hanswer
        · rename_i i hfound
          have hmem : i ∈ c.filter fun i => !isLocalAt defs i := by rw [hfound]; exact List.mem_cons_self
          rw [← Resolution.resolved.inj (Option.some.inj hanswer)]
          exact byId_isSome_iff.mpr ⟨i, (ladder_spec hc).2 i (List.mem_filter.mp hmem).1, rfl⟩
        · cases hanswer

/-- So is what a local name resolves to. -/
theorem byId_of_resolveLocalSymbol {id : Str}
    (h : resolveLocalSymbol defs lower query = .resolved id) : (byId defs id).isSome := by
  unfold resolveLocalSymbol at h
  cases hstep : ([positions defs fun d => d.name == query,
      positions defs fun d => lower d.name == lower query,
      if '.' ∈ query then
        positions defs fun d => d.isLocal && ('.' :: query).isSuffixOf d.id
      else []] : List (List Nat)).findSome? (localStep defs) with
  | none =>
      rw [hstep] at h
      cases h
  | some r =>
      rw [hstep, Option.getD_some] at h
      subst h
      obtain ⟨c, -, hanswer⟩ := List.exists_of_findSome?_eq_some hstep
      unfold localStep at hanswer
      split at hanswer
      · cases hanswer
      · rename_i i hfound
        have hmem : i ∈ c.filter (isLocalAt defs) := by rw [hfound]; exact List.mem_cons_self
        have hlocal := (List.mem_filter.mp hmem).2
        have hlt : i < defs.length := by
          by_contra hge
          rw [isLocalAt, List.getElem?_eq_none (Nat.le_of_not_lt hge)] at hlocal
          cases hlocal
        rw [← Resolution.resolved.inj (Option.some.inj hanswer)]
        exact byId_isSome_iff.mpr ⟨i, hlt, rfl⟩
      · cases hanswer

/-- Every id of a refusal is carried, so every row of it can be written. -/
theorem refusalOrder_perm {ids : List Str} (h : ∀ id ∈ ids, (byId defs id).isSome) :
    ∃ picks, typeCandidatesInRefusalOrder defs ids = some picks ∧ picks.Perm ids := by
  have hrows : ∃ rows : List (Str × Str), (ids.mapM fun id => (candidateDef defs id).map fun d =>
      (typeCandidateRow id d, id)) = some rows ∧ rows.map Prod.snd = ids := by
    induction ids with
    | nil => exact ⟨[], rfl, rfl⟩
    | cons id ids ih =>
        obtain ⟨rows, hrows, hsnd⟩ := ih fun id' hid' => h id' (List.mem_cons_of_mem id hid')
        obtain ⟨i, hi⟩ := Option.isSome_iff_exists.mp (h id List.mem_cons_self)
        have hlt := (idAt_of_byId hi).1
        have hd := List.getElem?_eq_getElem hlt
        refine ⟨(typeCandidateRow id defs[i], id) :: rows, ?_, by rw [List.map_cons, hsnd]⟩
        rw [List.mapM_cons, hrows, candidateDef, hi, Option.bind_some, hd]
        rfl
  obtain ⟨rows, hrows, hsnd⟩ := hrows
  refine ⟨_, by rw [typeCandidatesInRefusalOrder, hrows, Option.map_some], ?_⟩
  refine ((List.perm_insertionSort _ rows).map Prod.snd).trans ?_
  rw [hsnd]

/-- The pick of an id answers about the definition at a position: the verb resolves the id to
itself, and what it reads back is that definition. -/
structure AnswersAbout (defs : List DefRow) (lower : Str → Str) (id : Str) (i : Nat) : Prop where
  resolved : resolveSymbol defs lower id = .resolved id
  filed : byId defs id = some i
  read : candidateDef defs id = defs[i]?

variable (defs lower query) in
/-- A refusal can be resolved: its ids are distinct and at least two, the rows it numbers are
these ids, and for every candidate a number answers about it. -/
def PicksAnswer : Prop :=
  ∀ ids, resolveSymbol defs lower query = .ambiguous ids →
    ids.Nodup ∧ 2 ≤ ids.length ∧
      ∃ picks, typeCandidatesInRefusalOrder defs ids = some picks ∧ picks.Perm ids ∧
        ∀ i ∈ refusedCandidates defs lower query, ∃ (n : Nat) (id : Str), picks[n]? = some id ∧
          AnswersAbout defs lower id i

/-- **When a refusal can be resolved.** Exactly when every candidate is the last definition
that carries its id. -/
theorem picksAnswer_iff (defs : List DefRow) (lower : Str → Str) (query : Str) :
    PicksAnswer defs lower query ↔
      (RefusedQuery defs lower query → ∀ i ∈ refusedCandidates defs lower query,
        ∀ j < defs.length, idAt defs j = idAt defs i → j ≤ i) := by
  obtain ⟨hnodup, hlt⟩ := @refusedCandidates_spec defs lower query
  constructor
  · intro h hrefused i hi
    obtain ⟨-, -, picks, -, -, hpicks⟩ := h _ (resolveSymbol_eq_ambiguous_iff.mpr ⟨hrefused, rfl⟩)
    obtain ⟨n, id, -, hanswers⟩ := hpicks i hi
    obtain ⟨-, rfl⟩ := idAt_of_byId hanswers.filed
    exact (byId_eq_some_iff (hlt i hi)).mp hanswers.filed
  · intro hlast ids hids
    obtain ⟨hrefused, rfl⟩ := resolveSymbol_eq_ambiguous_iff.mp hids
    have hfiled : ∀ i ∈ refusedCandidates defs lower query, byId defs (idAt defs i) = some i :=
      fun i hi => (byId_eq_some_iff (hlt i hi)).mpr (hlast hrefused i hi)
    have hperm : (sortedIds defs (refusedCandidates defs lower query)).Perm
        ((refusedCandidates defs lower query).map (idAt defs)) := List.perm_insertionSort _ _
    obtain ⟨picks, hpicks, hpicksPerm⟩ := @refusalOrder_perm defs
      (sortedIds defs (refusedCandidates defs lower query)) fun id hid => by
        obtain ⟨i, hi, rfl⟩ := List.mem_map.mp (hperm.mem_iff.mp hid)
        rw [hfiled i hi]
        rfl
    refine ⟨?_, ?_, picks, hpicks, hpicksPerm, ?_⟩
    · -- two candidates with one id would both be the last to carry it
      refine hperm.nodup_iff.mpr (hnodup.map_on fun i hi j hj heq => ?_)
      exact Option.some.inj ((hfiled i hi).symm.trans (heq ▸ hfiled j hj))
    · rw [hperm.length_eq, List.length_map]
      exact hrefused.2.trans (List.length_filter_le _ _)
    · intro i hi
      have hmem : idAt defs i ∈ picks :=
        hpicksPerm.mem_iff.mpr (hperm.mem_iff.mpr (List.mem_map_of_mem hi))
      obtain ⟨n, hn⟩ := List.mem_iff_getElem?.mp hmem
      refine ⟨n, _, hn, ?_, hfiled i hi, by rw [candidateDef, hfiled i hi, Option.bind_some]⟩
      rw [resolveSymbol, if_pos (by rw [hfiled i hi]; rfl)]

end Refusals

/-! ## A type and its generic namesake -/

/-- `Result` and `Result<T>` of one namespace. -/
def genericNamesake : List DefRow :=
  [{ id := "App.Result".toList, name := "Result".toList, kind := "class".toList
     file := "result.cs".toList, line := 3 },
    { id := "App.Result".toList, name := "Result".toList, kind := "class".toList
      file := "result-of.cs".toList, line := 5 }]

/-- The refusal lists one id twice, and no number answers about the first of the two. -/
theorem genericNamesake_not_picked : ¬ PicksAnswer genericNamesake toLowercase "Result".toList := by
  intro h
  have hids : resolveSymbol genericNamesake toLowercase "Result".toList =
      .ambiguous ["App.Result".toList, "App.Result".toList] := by decide +kernel
  exact absurd (h _ hids).1 (by decide)

end Devscout.Query
