/-
# Devscout.Query.Offer -- the subject a read is told to ask about

Behind a file that is read whole, the hook offers the verb `read` with one of the definitions
of the file: the one whose declaration stands nearest to the lines that were read. It is named
by its name alone where no definition with another id has that name, and by its id otherwise.

The verb reads a subject down a ladder of its own, and the two do not always agree. An id
names what is filed under it last, so a generic type and its namesake cannot be told apart;
a name may be the id of something else; and a name that only definitions local to a file have
is first read in lower case, as the end of an id, and as a member. `offer_reads_iff` says which
offers the verb answers with the definition they were made for.
-/

import Devscout.Query.Next
import Devscout.Lib.Foremost

namespace Devscout.Query.Answers

open Lib

/-! ## The lines that were read -/

/-- The end of a read that says nothing about its length: `usize::MAX`. -/
def noEnd : Nat := 2 ^ 64 - 1

/-- What the payload says of the lines: the response's start and their number, and the offset
that was asked for. -/
structure RequestedLines where
  startLine : Option Int
  numLines : Option Int
  offset : Option Int

/-- The first line and the last one; a start without a number reads to the end, and no start
as the whole file. -/
def RequestedLines.range (r : RequestedLines) : Nat × Nat :=
  match (r.startLine.or r.offset).map fun v => (max v 1).toNat, r.numLines with
  | some s, some n => (s, min (s - 1 + (max n 0).toNat) noEnd)
  | some s, none => (s, noEnd)
  | none, _ => (1, noEnd)

/-! ## The definition that is offered -/

/-- The first line of a declaration; lines are counted from 1. -/
def declaredFrom (d : DefRow) : Nat := max d.line 1

/-- Its last line; where none is recorded the declaration is its first line. -/
def declaredTo (d : DefRow) : Nat :=
  if declaredFrom d ≤ d.endLine then d.endLine else declaredFrom d

/-- The lines between a declaration and those that were read; none where they overlap. -/
def lineGap (range : Nat × Nat) (d : DefRow) : Nat :=
  if declaredTo d < range.1 then range.1 - declaredTo d else declaredFrom d - range.2

/-- No farther: a smaller gap, or an earlier first line, or an id that sorts before. -/
def NoFarther (range : Nat × Nat) (a b : DefRow) : Prop :=
  toLex (lineGap range a, toLex (declaredFrom a, a.id)) ≤
    toLex (lineGap range b, toLex (declaredFrom b, b.id))

instance (range : Nat × Nat) : DecidableRel (NoFarther range) :=
  fun _ _ => inferInstanceAs (Decidable (_ ≤ _))

/-- `nearest_def`: `min_by` takes the first of the nearest. -/
def nearestDef (range : Nat × Nat) (defs : List DefRow) : Option DefRow :=
  (defs.insertionSort (NoFarther range)).head?

/-- The subject of `offer_text`. -/
def offerSubject (defs : List DefRow) (chosen : DefRow) : Str :=
  if defs.any fun d => d.id != chosen.id && d.name == chosen.name then chosen.id else chosen.name

/-- `offer_text`. -/
def offerText (defs : List DefRow) (chosen : DefRow) : Str :=
  "[devscout: this file is indexed — 'devscout read ".toList ++ offerSubject defs chosen ++
    "' shows its declaration span and inbound references.]".toList

/-- `first_read_offer`, with the definitions of the graph when there is one. -/
def firstReadOffer (graph : Option (List DefRow)) (rel : Str) (r : RequestedLines) : Option Str :=
  graph.bind fun defs =>
    (nearestDef r.range (defs.filter fun d => d.file == rel)).map (offerText defs)

/-- What is offered is nearer than every definition before it, and no farther than any after. -/
theorem nearestDef_foremost {range : Nat × Nat} {defs : List DefRow} {chosen : DefRow}
    (h : nearestDef range defs = some chosen) : Foremost (NoFarther range) defs chosen := by
  have htotal : ∀ a b, NoFarther range a b ∨ NoFarther range b a := fun _ _ => le_total _ _
  have htrans : ∀ a b c, NoFarther range a b → NoFarther range b c → NoFarther range a c :=
    fun _ _ _ hab hbc => le_trans hab hbc
  exact foremost_of_head?_insertionSort htotal htrans h

/-- It is a definition of the file that was read. -/
theorem firstReadOffer_eq_some {graph : Option (List DefRow)} {rel text : Str} {r : RequestedLines}
    (h : firstReadOffer graph rel r = some text) :
    ∃ defs chosen, graph = some defs ∧ chosen ∈ defs ∧ chosen.file = rel ∧
      text = offerText defs chosen := by
  obtain ⟨defs, hgraph, h⟩ := Option.bind_eq_some_iff.mp h
  obtain ⟨chosen, hchosen, rfl⟩ := Option.map_eq_some_iff.mp h
  obtain ⟨before, after, heq, -, -⟩ := nearestDef_foremost hchosen
  have hmem : chosen ∈ defs.filter fun d => d.file == rel := by
    rw [heq]
    exact List.mem_append_right _ List.mem_cons_self
  obtain ⟨hdefs, hfile⟩ := List.mem_filter.mp hmem
  exact ⟨defs, chosen, hgraph, hdefs, beq_iff_eq.mp hfile, rfl⟩

/-! ## What the verb answers about a subject -/

/-- The verb answers with the definition: under its id, and at its own file and line. -/
def ReadsAs (index : QueryIndex) (env : Surroundings) (subject : Str) (d : DefRow) : Prop :=
  ∃ m, buildReadModel index env subject = some (.resolved m) ∧ m.refs.id = d.id ∧
    m.refs.sites.head? = some ⟨d.file, d.line⟩

/-- What is filed under the id of the definition stands where the definition does. -/
def FiledInPlace (defs : List DefRow) (d : DefRow) : Prop :=
  (candidateDef defs d.id).map (fun row => (row.file, row.line)) = some (d.file, d.line)

instance (defs : List DefRow) (d : DefRow) : Decidable (FiledInPlace defs d) :=
  inferInstanceAs (Decidable (_ = _))

section Verb

variable {index : QueryIndex} {env : Surroundings} {subject : Str} {d : DefRow}

/-- The answer about an id that is carried. -/
theorem refsModelFor_spec {id : Str} (h : (byId index.artifact.defs id).isSome) (disk : Disk)
    (query : Str) (o : RefsOptions) :
    ∃ m row, refsModelFor index disk query id o = some m ∧ m.id = id ∧
      candidateDef index.artifact.defs id = some row ∧
      m.sites.head? = some ⟨row.file, row.line⟩ := by
  obtain ⟨m, hm⟩ := exists_refsModelFor h disk query o
  obtain ⟨row, hrow, rfl⟩ := Option.map_eq_some_iff.mp (show Option.map _ _ = some m from hm)
  refine ⟨_, row, hm, rfl, hrow, ?_⟩
  show (defSites index id).head? = _
  rw [defSites, hrow]
  rfl

/-- A subject is read as a member exactly when some type declares a member of its name. -/
theorem buildMemberRefsModels_eq_none_iff {cap : Nat} :
    buildMemberRefsModels index env.disk env.isScript subject cap = none ↔
      qualifiedMemberOwners index.artifact (splitMemberSeed subject).1
        (splitMemberSeed subject).2 = [] := by
  show memberRefsFromOwners index env.disk env.isScript subject _ _ cap = none ↔ _
  unfold memberRefsFromOwners
  rw [← List.isEmpty_iff]
  split_ifs with hempty
  · exact iff_of_true rfl hempty
  · dsimp only
    split_ifs <;> exact iff_of_false (by simp) hempty

/-- **What the verb answers with.** The definition stands where its id is filed, and the subject
is resolved to the id: by the ladder, or, where that and the members know nothing, among the
definitions that are local. -/
theorem readsAs_iff :
    ReadsAs index env subject d ↔ FiledInPlace index.artifact.defs d ∧
      (resolveSymbol index.artifact.defs env.lower subject = .resolved d.id ∨
        resolveSymbol index.artifact.defs env.lower subject = .notFound ∧
          qualifiedMemberOwners index.artifact (splitMemberSeed subject).1
            (splitMemberSeed subject).2 = [] ∧
          resolveLocalSymbol index.artifact.defs env.lower subject = .resolved d.id) := by
  -- an id that is reached, by either ladder, is answered with what is filed under it
  have hanswer : ∀ id, (byId index.artifact.defs id).isSome →
      ((∃ m, ((refsModelFor index env.disk subject id
          { out := false, cap := 50, inboundCap := 30, outboundCap := 30, allOut := false
            excludeSelfInbound := true }).map RefsResult.resolved).map (readResultFromRefs index env) =
            some (.resolved m) ∧ m.refs.id = d.id ∧ m.refs.sites.head? = some ⟨d.file, d.line⟩) ↔
        id = d.id ∧ FiledInPlace index.artifact.defs d) := by
    intro id hid
    obtain ⟨m, row, hm, hmid, hrow, hsite⟩ := refsModelFor_spec hid env.disk subject
      { out := false, cap := 50, inboundCap := 30, outboundCap := 30, allOut := false
        excludeSelfInbound := true }
    rw [hm, Option.map_some, Option.map_some]
    constructor
    · rintro ⟨r, hr, hrid, hrsite⟩
      obtain rfl := ReadResult.resolved.inj (Option.some.inj hr)
      have hid : id = d.id := hmid.symm.trans hrid
      refine ⟨hid, ?_⟩
      obtain ⟨hfile, hline⟩ := DefSite.mk.inj (Option.some.inj (hsite.symm.trans hrsite))
      rw [FiledInPlace, ← hid, hrow, Option.map_some, hfile, hline]
    · rintro ⟨rfl, hfiled⟩
      rw [FiledInPlace, hrow, Option.map_some] at hfiled
      obtain ⟨hfile, hline⟩ := Prod.mk.inj (Option.some.inj hfiled)
      exact ⟨_, rfl, hmid, by rw [← hfile, ← hline]; exact hsite⟩
  unfold ReadsAs buildReadModel buildRefsModelInner
  cases hsymbol : resolveSymbol index.artifact.defs env.lower subject with
  | resolved id =>
      refine (hanswer id (byId_of_resolveSymbol hsymbol)).trans ?_
      simp only [Resolution.resolved.injEq, reduceCtorEq, false_and, or_false]
      exact and_comm
  | ambiguous ids => simp [readResultFromRefs]
  | notFound =>
      simp only [reduceCtorEq, true_and, false_or]
      rw [← @buildMemberRefsModels_eq_none_iff index env subject 30]
      cases hmember : buildMemberRefsModels index env.disk env.isScript subject 30 with
      | some o => cases o <;> simp [readResultFromRefs]
      | none =>
          cases hlocal : resolveLocalSymbol index.artifact.defs env.lower subject with
          | resolved id =>
              refine (hanswer id (byId_of_resolveLocalSymbol hlocal)).trans ?_
              simp only [Resolution.resolved.injEq, true_and]
              exact and_comm
          | ambiguous ids => simp [readResultFromRefs]
          | notFound => simp [readResultFromRefs]

end Verb

/-! ## The two ladders, step by step -/

section Steps

variable {defs : List DefRow} {lower : Str → Str} {query id : Str}

/-- The step knows a definition that is not local. -/
def knowsNonLocal (defs : List DefRow) (c : List Nat) : Bool := c.any fun i => !isLocalAt defs i

/-- The ids of the definitions of a step that are not local. -/
def nonLocalIds (defs : List DefRow) (c : List Nat) : List Str :=
  (c.filter fun i => !isLocalAt defs i).map (idAt defs)

theorem nonLocalStep_eq_resolved_iff {c : List Nat} :
    nonLocalStep defs c = some (.resolved id) ↔ nonLocalIds defs c = [id] := by
  unfold nonLocalStep nonLocalIds
  rcases c.filter fun i => !isLocalAt defs i with _ | ⟨i, _ | ⟨j, rest⟩⟩ <;> simp

theorem localStep_eq_resolved_iff {c : List Nat} :
    localStep defs c = some (.resolved id) ↔ (c.filter (isLocalAt defs)).map (idAt defs) = [id] := by
  unfold localStep
  rcases c.filter (isLocalAt defs) with _ | ⟨i, _ | ⟨j, rest⟩⟩ <;> simp

theorem nonLocalStep_ne_notFound {c : List Nat} : nonLocalStep defs c ≠ some .notFound := by
  unfold nonLocalStep
  split <;> simp

/-- The ladder over types resolves what is an id to itself, and any other query by the first
step that knows a definition which is not local. -/
theorem resolveSymbol_eq_resolved_iff :
    resolveSymbol defs lower query = .resolved id ↔
      (byId defs query).isSome ∧ query = id ∨
        byId defs query = none ∧ ∃ c, (ladder defs lower query).find? (knowsNonLocal defs) = some c ∧
          nonLocalIds defs c = [id] := by
  unfold resolveSymbol
  rw [findSome?_nonLocalStep]
  cases hid : byId defs query with
  | some i => simp
  | none =>
      simp only [Option.isSome_none, Bool.false_eq_true, if_false, false_and, false_or, true_and]
      show Option.getD (((ladder defs lower query).find? (knowsNonLocal defs)).bind _) _ = _ ↔ _
      cases hfind : (ladder defs lower query).find? (knowsNonLocal defs) with
      | none => simp
      | some c =>
          simp only [Option.bind_some, Option.some.injEq, exists_eq_left']
          rw [← nonLocalStep_eq_resolved_iff]
          cases hstep : nonLocalStep defs c with
          | none => simp
          | some r => simp

theorem resolveSymbol_eq_notFound_iff :
    resolveSymbol defs lower query = .notFound ↔
      byId defs query = none ∧ (ladder defs lower query).find? (knowsNonLocal defs) = none := by
  unfold resolveSymbol
  rw [findSome?_nonLocalStep]
  cases hid : byId defs query with
  | some i => simp
  | none =>
      simp only [Option.isSome_none, Bool.false_eq_true, if_false, true_and]
      show Option.getD (((ladder defs lower query).find? (knowsNonLocal defs)).bind _) _ = _ ↔ _
      cases hfind : (ladder defs lower query).find? (knowsNonLocal defs) with
      | none => simp
      | some c =>
          rw [Option.bind_some]
          cases hstep : nonLocalStep defs c with
          | none =>
              -- the step was taken because it knows one
              have hknows : knowsNonLocal defs c = true := List.find?_some hfind
              rw [knowsNonLocal, nonLocalStep_eq_none_iff.mp hstep] at hknows
              cases hknows
          | some r =>
              refine iff_of_false ?_ (by simp)
              rintro rfl
              exact nonLocalStep_ne_notFound hstep

/-- The rows at the positions that pass a test are the rows that pass it. -/
theorem map_positions (p : DefRow → Bool) :
    (positions defs p).map (fun i => defs[i]?) = (defs.filter p).map some := by
  have hrows : (List.range defs.length).map (fun i => defs[i]?) = defs.map some := by
    refine List.ext_getElem (by simp) fun i hi hi' => ?_
    rw [List.length_map] at hi'
    simp [hi']
  have hfilter := congrArg (List.filter fun o => o.any p) hrows
  rw [List.filter_map, List.filter_map] at hfilter
  exact hfilter

theorem filter_positions (p q : DefRow → Bool) :
    ((positions defs p).filter fun i => defs[i]?.any q) = positions defs fun d => p d && q d := by
  unfold positions
  rw [List.filter_filter]
  refine List.filter_congr fun i _ => ?_
  cases defs[i]? with
  | none => rfl
  | some d => exact Bool.and_comm _ _

theorem ids_positions (p : DefRow → Bool) :
    (positions defs p).map (idAt defs) = (defs.filter p).map DefRow.id := by
  have h := congrArg (List.map fun o : Option DefRow => (o.map DefRow.id).getD [])
    (@map_positions defs p)
  rw [List.map_map, List.map_map] at h
  exact h

theorem localIds_positions (p : DefRow → Bool) :
    ((positions defs p).filter (isLocalAt defs)).map (idAt defs) =
      (defs.filter fun d => p d && d.isLocal).map DefRow.id := by
  rw [← ids_positions, ← filter_positions]
  rfl

theorem nonLocalIds_positions (p : DefRow → Bool) :
    nonLocalIds defs (positions defs p) =
      (defs.filter fun d => p d && !d.isLocal).map DefRow.id := by
  rw [← ids_positions, ← filter_positions, nonLocalIds]
  refine congrArg _ (List.filter_congr fun i hi => ?_)
  obtain ⟨d, hd, -⟩ := mem_positions.mp hi
  rw [isLocalAt, hd]
  rfl

/-- A step knows a definition that is not local when it has the id of one. -/
theorem knowsNonLocal_iff {c : List Nat} : knowsNonLocal defs c = true ↔ nonLocalIds defs c ≠ [] := by
  rw [knowsNonLocal, nonLocalIds, Ne, List.map_eq_nil_iff, List.filter_eq_nil_iff, List.any_eq_true]
  simp

end Steps

/-! ## When an offer is kept -/

section Kept

/-- The definitions of one name. -/
def namedLike (defs : List DefRow) (d : DefRow) : List DefRow := defs.filter fun e => e.name == d.name

/-- The first step of the ladder behind the name that knows a definition which is not local:
the name in lower case, the end of a dotted id, the end of a path. -/
def furtherStep (defs : List DefRow) (lower : Str → Str) (name : Str) : Option (List Nat) :=
  (ladder defs lower name).tail.find? (knowsNonLocal defs)

/-- A definition with another id has the same name, so the id is offered. -/
def IdOffered (defs : List DefRow) (d : DefRow) : Prop := ∃ e ∈ defs, e.id ≠ d.id ∧ e.name = d.name

/-- Every definition of the name is local. Then what stands further down the ladder must be the
definition's id as well, and where nothing does, no type may declare a member of the name and
no second definition have it. -/
def LocalNameReads (a : Artifact) (lower : Str → Str) (d : DefRow) : Prop :=
  (∀ e ∈ namedLike a.defs d, e.isLocal = true) ∧
    match furtherStep a.defs lower d.name with
    | some c => nonLocalIds a.defs c = [d.id]
    | none =>
        qualifiedMemberOwners a (splitMemberSeed d.name).1 (splitMemberSeed d.name).2 = [] ∧
          (namedLike a.defs d).length = 1

/-- The name is the definition's id; or it is no id, and one definition of the name is not
local, or none is. -/
def NameReads (a : Artifact) (lower : Str → Str) (d : DefRow) : Prop :=
  d.id = d.name ∨ (∀ e ∈ a.defs, e.id ≠ d.name) ∧
    (((namedLike a.defs d).filter fun e => !e.isLocal).length = 1 ∨ LocalNameReads a lower d)

/-- The condition under which the offer is kept. -/
def OfferKept (a : Artifact) (lower : Str → Str) (d : DefRow) : Prop :=
  FiledInPlace a.defs d ∧ (IdOffered a.defs d ∨ NameReads a lower d)

variable {a : Artifact} {lower : Str → Str} {d : DefRow}

theorem offerSubject_of_idOffered (h : IdOffered a.defs d) : offerSubject a.defs d = d.id := by
  obtain ⟨e, he, hid, hname⟩ := h
  have hany : (a.defs.any fun e => e.id != d.id && e.name == d.name) = true :=
    List.any_eq_true.mpr ⟨e, he, by simp [hid, hname]⟩
  rw [offerSubject, if_pos hany]

theorem offerSubject_of_not_idOffered (h : ¬IdOffered a.defs d) :
    offerSubject a.defs d = d.name := by
  have hany : ¬(a.defs.any fun e => e.id != d.id && e.name == d.name) = true := by
    intro hany
    obtain ⟨e, he, htest⟩ := List.any_eq_true.mp hany
    rw [Bool.and_eq_true, bne_iff_ne, beq_iff_eq] at htest
    exact h ⟨e, he, htest.1, htest.2⟩
  rw [offerSubject, if_neg hany]

theorem byId_eq_none_iff {id : Str} : byId a.defs id = none ↔ ∀ e ∈ a.defs, e.id ≠ id := by
  rw [byId, List.getLast?_eq_none_iff, ← List.map_eq_nil_iff (f := fun i => a.defs[i]?), map_positions,
    List.map_eq_nil_iff, List.filter_eq_nil_iff]
  simp

/-- Where only its own id has the name, the ids of any definitions of the name are copies of
it. -/
theorem ids_eq_singleton_iff (h : ¬IdOffered a.defs d) (p : DefRow → Bool) :
    (a.defs.filter fun e => e.name == d.name && p e).map DefRow.id = [d.id] ↔
      ((namedLike a.defs d).filter p).length = 1 := by
  have hfilter : (a.defs.filter fun e => e.name == d.name && p e) = (namedLike a.defs d).filter p := by
    rw [namedLike, List.filter_filter]
    exact List.filter_congr fun _ _ => Bool.and_comm _ _
  rw [hfilter]
  constructor
  · intro hids
    rw [← List.length_map (f := DefRow.id), hids, List.length_singleton]
  · intro hlength
    obtain ⟨e, he⟩ := List.length_eq_one_iff.mp hlength
    have hmem : e ∈ (namedLike a.defs d).filter p := by rw [he]; exact List.mem_singleton_self e
    obtain ⟨hdefs, hname⟩ := List.mem_filter.mp (List.mem_filter.mp hmem).1
    have hid : e.id = d.id := by
      by_contra hne
      exact h ⟨e, hdefs, hne, beq_iff_eq.mp hname⟩
    rw [he, List.map_singleton, hid]

/-- The subject is a name that is no id, and some definition of the name is not local: the
ladder stops at the name. -/
theorem resolved_of_nonLocal (h : ¬IdOffered a.defs d) (hid : byId a.defs d.name = none)
    (hsome : ∃ e ∈ namedLike a.defs d, e.isLocal = false) :
    resolveSymbol a.defs lower d.name ≠ .notFound ∧
      (resolveSymbol a.defs lower d.name = .resolved d.id ↔
        ((namedLike a.defs d).filter fun e => !e.isLocal).length = 1) := by
  set named := positions a.defs fun e => e.name == d.name with hnamed
  have hids : nonLocalIds a.defs named = _ := nonLocalIds_positions _
  have hknows : knowsNonLocal a.defs named = true := by
    obtain ⟨e, he, hlocal⟩ := hsome
    obtain ⟨hdefs, hname⟩ := List.mem_filter.mp he
    rw [knowsNonLocal_iff, hids, Ne, List.map_eq_nil_iff, List.filter_eq_nil_iff]
    intro hnone
    exact hnone e hdefs (by simp [hname, hlocal])
  have hfind : (ladder a.defs lower d.name).find? (knowsNonLocal a.defs) = some named := by
    rw [ladder, List.find?_cons_of_pos hknows]
  constructor
  · rw [Ne, resolveSymbol_eq_notFound_iff, hfind]
    simp
  · rw [resolveSymbol_eq_resolved_iff, hfind, hid, ← ids_eq_singleton_iff h, ← hids]
    simp

/-- All definitions of the name are local: the ladder goes on behind it. -/
theorem find?_ladder_of_local (hall : ∀ e ∈ namedLike a.defs d, e.isLocal = true) :
    (ladder a.defs lower d.name).find? (knowsNonLocal a.defs) = furtherStep a.defs lower d.name := by
  have hknows : ¬knowsNonLocal a.defs (positions a.defs fun e => e.name == d.name) = true := by
    rw [knowsNonLocal_iff, nonLocalIds_positions, not_not, List.map_eq_nil_iff, List.filter_eq_nil_iff]
    intro e he
    rw [Bool.and_eq_true, Bool.not_eq_true', not_and, Bool.not_eq_false]
    intro hname
    exact hall e (List.mem_filter.mpr ⟨he, hname⟩)
  rw [furtherStep, ladder, List.find?_cons_of_neg hknows, List.tail_cons]

/-- Among local definitions the name is tried first, and the definition itself has it. -/
theorem resolveLocalSymbol_name_iff (hmem : d ∈ a.defs) (h : ¬IdOffered a.defs d)
    (hall : ∀ e ∈ namedLike a.defs d, e.isLocal = true) :
    resolveLocalSymbol a.defs lower d.name = .resolved d.id ↔ (namedLike a.defs d).length = 1 := by
  set named := positions a.defs fun e => e.name == d.name with hnamed
  have hlocals : (namedLike a.defs d).filter (fun e => e.isLocal) = namedLike a.defs d :=
    List.filter_eq_self.mpr hall
  have hself : d ∈ namedLike a.defs d := List.mem_filter.mpr ⟨hmem, beq_self_eq_true _⟩
  have hids : (named.filter (isLocalAt a.defs)).map (idAt a.defs) = _ := localIds_positions _
  have hiff := ids_eq_singleton_iff h fun e => e.isLocal
  rw [← hids, hlocals] at hiff
  have hne : (named.filter (isLocalAt a.defs)).map (idAt a.defs) ≠ [] := by
    rw [hids, Ne, List.map_eq_nil_iff, List.filter_eq_nil_iff]
    intro hnone
    exact hnone d hmem (by simp [hall d hself])
  rw [← hiff, ← localStep_eq_resolved_iff, resolveLocalSymbol]
  obtain ⟨r, hr⟩ : ∃ r, localStep a.defs named = some r := by
    unfold localStep
    rcases hfound : named.filter (isLocalAt a.defs) with _ | ⟨i, _ | ⟨j, rest⟩⟩
    · rw [hfound] at hne
      exact absurd rfl hne
    · exact ⟨_, rfl⟩
    · exact ⟨_, rfl⟩
  rw [List.findSome?_cons, ← hnamed, hr, Option.getD_some, Option.some.injEq]

/-- **When an offer is kept.** The verb answers the subject that is offered with the definition
it is offered for exactly when that stands where its id is filed and, where the name is offered,
the name reads as it. -/
theorem offer_reads_iff (index : QueryIndex) (env : Surroundings) (d : DefRow)
    (hmem : d ∈ index.artifact.defs) :
    ReadsAs index env (offerSubject index.artifact.defs d) d ↔
      OfferKept index.artifact env.lower d := by
  rw [readsAs_iff, OfferKept]
  refine and_congr_right fun _ => ?_
  by_cases hoffered : IdOffered index.artifact.defs d
  · -- an id is resolved before anything else
    rw [offerSubject_of_idOffered hoffered]
    have hid : (byId index.artifact.defs d.id).isSome := by
      rw [Option.isSome_iff_ne_none, Ne, byId_eq_none_iff]
      exact fun hnone => hnone d hmem rfl
    have hresolved : resolveSymbol index.artifact.defs env.lower d.id = .resolved d.id :=
      resolveSymbol_eq_resolved_iff.mpr (Or.inl ⟨hid, rfl⟩)
    exact iff_of_true (Or.inl hresolved) (Or.inl hoffered)
  rw [offerSubject_of_not_idOffered hoffered, or_iff_right hoffered, NameReads]
  cases hid : byId index.artifact.defs d.name with
  | some i =>
      have hsome : (byId index.artifact.defs d.name).isSome := by rw [hid]; rfl
      have hclaimed : ¬∀ e ∈ index.artifact.defs, e.id ≠ d.name := by
        rw [← byId_eq_none_iff, hid]
        exact Option.some_ne_none i
      have hnone : resolveSymbol index.artifact.defs env.lower d.name ≠ .notFound := by
        rw [Ne, resolveSymbol_eq_notFound_iff, hid]
        simp
      rw [or_iff_left (fun h => hnone h.1), or_iff_left (fun h => hclaimed h.1),
        resolveSymbol_eq_resolved_iff, hid]
      simp [eq_comm]
  | none =>
      have hfree := byId_eq_none_iff.mp hid
      rw [or_iff_right (hfree d hmem), and_iff_right hfree]
      by_cases hall : ∀ e ∈ namedLike index.artifact.defs d, e.isLocal = true
      · have hempty : ¬((namedLike index.artifact.defs d).filter fun e => !e.isLocal).length = 1 := by
          rw [List.filter_eq_nil_iff.mpr fun e he => by simp [hall e he]]
          simp
        rw [or_iff_right hempty, LocalNameReads, and_iff_right hall, resolveSymbol_eq_resolved_iff,
          resolveSymbol_eq_notFound_iff, find?_ladder_of_local hall, hid,
          resolveLocalSymbol_name_iff hmem hoffered hall]
        cases furtherStep index.artifact.defs env.lower d.name with
        | some c => simp
        | none => simp
      · obtain ⟨hnone, hresolved⟩ := @resolved_of_nonLocal _ env.lower _ hoffered hid (by
          simpa only [not_forall, Bool.not_eq_true, exists_prop] using hall)
        rw [or_iff_left (fun h => hnone h.1), hresolved, or_iff_left (fun h => hall h.1)]

end Kept

/-! ## Offers that are kept, and one that is not -/

/-- A function private to its module, and an exported class of another file whose name differs
from it in one capital letter. -/
def capitalNamesakes : List DefRow :=
  [{ id := "web/cart.ts#order".toList, name := "order".toList, kind := "function".toList
     file := "web/cart.ts".toList, line := 4, endLine := 9, isLocal := true },
    { id := "web/order.ts#Order".toList, name := "Order".toList, kind := "class".toList
      file := "web/order.ts".toList, line := 1, endLine := 30 }]

/-- The index of a graph without edges. -/
def plainIndex (defs : List DefRow) : QueryIndex :=
  loadQueryIndex { defs := defs, names := [], edges := [], unitIsTest := fun _ => false } none
    { includeGuesses := false, includeDispatch := true, includeBus := true }

/-- The class is read by its name. -/
theorem order_offer_read :
    ReadsAs (plainIndex capitalNamesakes) cartSurroundings
      (offerSubject capitalNamesakes capitalNamesakes[1]) capitalNamesakes[1] := by
  refine (offer_reads_iff (plainIndex capitalNamesakes) cartSurroundings capitalNamesakes[1]
    (List.getElem_mem _)).mpr ⟨by decide +kernel, Or.inr (Or.inr ⟨?_, Or.inl ?_⟩)⟩
  · decide +kernel
  · decide +kernel

/-- The function is offered by its name to whoever reads the top of its file, and the verb
answers with the class. -/
theorem capital_offer_missed :
    firstReadOffer (some capitalNamesakes) "web/cart.ts".toList ⟨some 1, some 20, none⟩ =
        some ("[devscout: this file is indexed — 'devscout read order' shows its declaration span ".toList ++
          "and inbound references.]".toList) ∧
      (∃ m, buildReadModel (plainIndex capitalNamesakes) cartSurroundings "order".toList =
        some (.resolved m) ∧ m.refs.id = "web/order.ts#Order".toList ∧
          m.refs.sites.head? = some ⟨"web/order.ts".toList, 1⟩) ∧
      ¬ReadsAs (plainIndex capitalNamesakes) cartSurroundings
        (offerSubject capitalNamesakes capitalNamesakes[0]) capitalNamesakes[0] := by
  refine ⟨?_, ?_, ?_⟩
  · -- the literals are rewritten before the kernel runs the code, which would decode their bytes
    delta firstReadOffer offerText capitalNamesakes
    repeat rw [String.toList_ofList]
    decide +kernel
  · have hsymbol : resolveSymbol capitalNamesakes toLowercase "order".toList =
        .resolved "web/order.ts#Order".toList := by
      delta capitalNamesakes
      repeat rw [String.toList_ofList]
      decide +kernel
    have hfiled : FiledInPlace capitalNamesakes capitalNamesakes[1] := by
      delta capitalNamesakes
      repeat rw [String.toList_ofList]
      decide +kernel
    exact (@readsAs_iff (plainIndex capitalNamesakes) cartSurroundings "order".toList
      capitalNamesakes[1]).mpr ⟨hfiled, Or.inl hsymbol⟩
  · intro hread
    have hsymbol : resolveSymbol capitalNamesakes toLowercase
        (offerSubject capitalNamesakes capitalNamesakes[0]) =
          .resolved "web/order.ts#Order".toList := by
      delta capitalNamesakes
      repeat rw [String.toList_ofList]
      decide +kernel
    rcases (readsAs_iff.mp hread).2 with hresolved | ⟨hnone, -⟩
    · exact absurd (hsymbol.symm.trans hresolved) (by decide +kernel)
    · exact absurd (hsymbol.symm.trans hnone) (by decide +kernel)

end Devscout.Query.Answers
