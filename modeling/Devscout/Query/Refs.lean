/-
# Devscout.Query.Refs -- what refers to a definition, and what that covers

The answer about one definition lists the edges into it, kind by kind, guesses after precise
ones and ambiguous references apart; an enum's answer takes in what refers to its members by
name. The blast radius gathers its edges by other code. For every definition but an enum it
covers the files of that list from one hop on; for an enum it starts from the enum alone, and
a file that only names a member is left out.
-/

import Devscout.Query.Brakes

namespace Devscout.Query

open Lib
open Resolve (HeuristicTier)

/-! ## The edges into one definition -/

/-- The inbound half of a symbol's references. -/
structure SymbolRefs where
  inboundInherits : List Edge
  inboundUsesType : List Edge
  inboundUsesMember : List Edge
  inboundImplements : List Edge
  inboundOverrides : List Edge
  heuristicInboundInherits : List Edge
  heuristicInboundUsesType : List Edge
  heuristicInboundUsesMember : List Edge
  ambiguousInbound : List Edge
  inboundCall : List Edge
  inboundJsxUse : List Edge
  inboundDispatch : List Edge
  inboundImport : List Edge

/-- The members of an enum, by their ids; nothing else has any. -/
def enumMembers (index : GraphIndex) (defId : Str) : List Def :=
  if (index.findDef defId).map (·.kind) = some "enum".toList then
    index.graph.defs.filter fun d => d.kind == "enum-member".toList && (defId ++ ['.']).isPrefixOf d.id
  else []

/-- `symbol_refs`. -/
def symbolRefs (index : GraphIndex) (defId : Str) : SymbolRefs where
  inboundInherits := SlotTable.at index.inbound defId .inherits
  inboundUsesType := SlotTable.at index.inbound defId .usesType
  inboundUsesMember := SlotTable.at index.inbound defId .usesMember ++
    (enumMembers index defId).flatMap fun d => SlotTable.at index.inbound d.id .usesMember
  inboundImplements := SlotTable.at index.inbound defId .implements
  inboundOverrides := SlotTable.at index.inbound defId .overrides
  heuristicInboundInherits := SlotTable.at index.heuristicInbound defId .inherits
  heuristicInboundUsesType := SlotTable.at index.heuristicInbound defId .usesType
  heuristicInboundUsesMember := SlotTable.at index.heuristicInbound defId .usesMember ++
    (enumMembers index defId).flatMap fun d => SlotTable.at index.heuristicInbound d.id .usesMember
  ambiguousInbound := EdgeTable.at index.ambiguousByCandidate defId
  inboundCall := SlotTable.at index.inbound defId .call
  inboundJsxUse := SlotTable.at index.inbound defId .jsxUse
  inboundDispatch := SlotTable.at index.inbound defId .dispatch
  inboundImport := SlotTable.at index.inbound defId .import_

/-! ## The answer -/

/-- `project_of`: the first segment of a path, none for a file at the root. -/
def projectOf (file : Str) : Str := if '/' ∈ file then file.takeWhile (· ≠ '/') else []

structure RankedInbound where
  kind : Slot
  edge : Edge
  heuristic : Bool

/-- The inbound kinds in order, each with its precise edges and its guesses. -/
def inboundKinds (refs : SymbolRefs) : List (Slot × List Edge × List Edge) :=
  [(Slot.inherits, refs.inboundInherits, refs.heuristicInboundInherits),
    (.usesType, refs.inboundUsesType, refs.heuristicInboundUsesType),
    (.usesMember, refs.inboundUsesMember, refs.heuristicInboundUsesMember),
    (.implements, refs.inboundImplements, []),
    (.overrides, refs.inboundOverrides, []),
    (.call, refs.inboundCall, []),
    (.jsxUse, refs.inboundJsxUse, []),
    (.dispatch, refs.inboundDispatch, []),
    (.import_, refs.inboundImport, [])]

def rankedInbound (refs : SymbolRefs) : List RankedInbound :=
  (inboundKinds refs).flatMap fun (kind, precise, heuristic) =>
    precise.map (⟨kind, ·, false⟩) ++ heuristic.map (⟨kind, ·, true⟩)

/-- `loc_cmp`: file, then line. -/
def locLe (a b : Edge) : Bool :=
  if a.loc.1 = b.loc.1 then decide (a.loc.2 ≤ b.loc.2) else decide (a.loc.1 ≤ b.loc.1)

/-- Precise before guessed, the definition's own project before every other, then by place. -/
def rankLe (defProject : Str) (a b : RankedInbound) : Bool :=
  let foreign := fun (r : RankedInbound) => projectOf r.edge.loc.1 != defProject
  if a.heuristic ≠ b.heuristic then b.heuristic
  else if foreign a ≠ foreign b then foreign b
  else locLe a.edge b.edge

structure InboundRow where
  kind : Slot
  file : Str
  line : Nat
  heuristic : Bool
  tier : Option HeuristicTier
  deriving DecidableEq

structure AmbiguousRow where
  file : Str
  line : Nat
  origin : Str
  deriving DecidableEq

def inboundRow (r : RankedInbound) : InboundRow where
  kind := r.kind
  file := r.edge.loc.1
  line := r.edge.loc.2
  heuristic := r.heuristic
  tier := rowTier r.heuristic (r.edge.tierOf == some .ext)

/-- `ambiguous_row`; the table holds ambiguous edges only. -/
def ambiguousRow : Edge → Option AmbiguousRow
  | .ambiguous origin fromFile fromLine _ => some ⟨fromFile, fromLine, origin⟩
  | _ => none

structure RefsModel where
  id : Str
  kind : Str
  inbound : List InboundRow
  inboundTotal : Nat
  ambiguousInbound : List AmbiguousRow
  ambiguousTotal : Nat

/-- `build_refs_model`, for an id that was resolved; `allOut` lifts the cap of the inbound
tables, and the ambiguous one keeps its own. -/
def buildRefsModel (index : GraphIndex) (id : Str) (cap inboundCap : Nat) (allOut : Bool) :
    Option RefsModel :=
  (index.findDef id).map fun d =>
    let refs := symbolRefs index id
    let ranked := (rankedInbound refs).insertionSort fun a b => rankLe (projectOf d.file) a b = true
    let shown := if allOut then ranked else ranked.take inboundCap
    let ambiguous := refs.ambiguousInbound.insertionSort fun a b => locLe a b = true
    { id := id
      kind := d.kind
      inbound := shown.map inboundRow
      inboundTotal := ranked.length
      ambiguousInbound := (ambiguous.take cap).filterMap ambiguousRow
      ambiguousTotal := ambiguous.length }

/-! ## What the answer lists -/

section Listed

variable {graph : Graph} {opts : IndexOptions} {settings : Settings} {id d f : Str} {e : Edge}
  {slot : Slot} {cap inboundCap : Nat}

/-- A use of a member, precise or a guess that is admitted. -/
inductive UsesMemberOf (opts : IndexOptions) (d : Str) : Edge → Prop
  | precise (fromFile : Str) (fromLine : Nat) (toFile : Str) (tier : Option HeuristicTier) :
      UsesMemberOf opts d (.usesMember fromFile fromLine d toFile false tier)
  | guess (fromFile : Str) (fromLine : Nat) (toFile : Str) (tier : Option HeuristicTier)
      (h : opts.includeGuesses = true ∨ tier = some .ext) :
      UsesMemberOf opts d (.usesMember fromFile fromLine d toFile true tier)

theorem precise_of_mem_inbound (h : e ∈ SlotTable.at (loadGraphIndexWith graph opts).inbound d slot) :
    e ∈ graph.edges ∧ Precise opts d e := by
  obtain ⟨hmem, hpush⟩ := mem_fileSlots.mp h
  exact ⟨hmem, exists_inbound_iff.mp ⟨slot, hpush⟩⟩

theorem guessed_of_mem_heuristic
    (h : e ∈ SlotTable.at (loadGraphIndexWith graph opts).heuristicInbound d slot)
    (hslot : slot ∈ [Slot.inherits, Slot.usesType, Slot.usesMember]) :
    e ∈ graph.edges ∧ Guessed opts d e :=
  mem_heuristicInbound_iff.mp ⟨slot, hslot, h⟩

/-- The two lists of member uses, precise and guessed. -/
theorem mem_usesMember_iff :
    e ∈ SlotTable.at (loadGraphIndexWith graph opts).inbound d .usesMember ∨
        e ∈ SlotTable.at (loadGraphIndexWith graph opts).heuristicInbound d .usesMember ↔
      e ∈ graph.edges ∧ UsesMemberOf opts d e := by
  constructor
  · rintro (h | h)
    · obtain ⟨hmem, huses⟩ := mem_uses_iff.mp ⟨.usesMember, by decide, h⟩
      refine ⟨hmem, ?_⟩
      cases huses with
      | usesMember => exact .precise _ _ _ _
      | usesType => exact absurd (mem_recordReference_inbound.mp (mem_fileSlots.mp h).2).2.2 (by decide)
    · obtain ⟨hmem, hguess⟩ := guessed_of_mem_heuristic h (by decide)
      refine ⟨hmem, ?_⟩
      cases hguess with
      | usesMember _ _ _ _ hopts => exact .guess _ _ _ _ hopts
      | inherits | usesType =>
          exact absurd (mem_recordReference_heuristic.mp (mem_fileSlots.mp h).2).2.2.2 (by decide)
  · rintro ⟨hmem, huses⟩
    cases huses with
    | precise => exact Or.inl (mem_fileSlots.mpr ⟨hmem, mem_recordReference_inbound.mpr ⟨rfl, rfl, rfl⟩⟩)
    | guess _ _ _ _ h =>
        refine Or.inr (mem_fileSlots.mpr ⟨hmem, mem_recordReference_heuristic.mpr ⟨rfl, ?_, rfl, rfl⟩⟩)
        simpa [admits, Edge.tierOf] using h

/-- Only an enum has members, and it is a definition. -/
theorem exists_findDef_of_mem {index : GraphIndex} {x : Def} (hx : x ∈ enumMembers index id) :
    ∃ d, index.findDef id = some d := by
  unfold enumMembers at hx
  split at hx
  · rename_i henum
    obtain ⟨d, hd, -⟩ := Option.map_eq_some_iff.mp henum
    exact ⟨d, hd⟩
  · cases hx

/-- The uncapped rows are the ranked edges. -/
theorem exists_row_iff {model : RefsModel}
    (hmodel : buildRefsModel (loadGraphIndexWith graph opts) id cap inboundCap true = some model) :
    (∃ row ∈ model.inbound, row.file = f) ↔
      ∃ kind ∈ inboundKinds (symbolRefs (loadGraphIndexWith graph opts) id),
        ∃ e, (e ∈ kind.2.1 ∨ e ∈ kind.2.2) ∧ e.loc.1 = f := by
  obtain ⟨d, -, rfl⟩ := Option.map_eq_some_iff.mp hmodel
  simp only [if_true, List.mem_map, (List.perm_insertionSort _ _).mem_iff]
  unfold rankedInbound
  constructor
  · rintro ⟨row, ⟨r, hr, rfl⟩, rfl⟩
    obtain ⟨kind, hkind, hr⟩ := List.mem_flatMap.mp hr
    refine ⟨kind, hkind, r.edge, ?_, rfl⟩
    rcases List.mem_append.mp hr with hr | hr
    · obtain ⟨e, he, rfl⟩ := List.mem_map.mp hr
      exact Or.inl he
    · obtain ⟨e, he, rfl⟩ := List.mem_map.mp hr
      exact Or.inr he
  · rintro ⟨kind, hkind, e, he | he, rfl⟩
    · exact ⟨_, ⟨⟨kind.1, e, false⟩, List.mem_flatMap.mpr ⟨kind, hkind, List.mem_append_left _
        (List.mem_map_of_mem he)⟩, rfl⟩, rfl⟩
    · exact ⟨_, ⟨⟨kind.1, e, true⟩, List.mem_flatMap.mpr ⟨kind, hkind, List.mem_append_right _
        (List.mem_map_of_mem he)⟩, rfl⟩, rfl⟩

/-- What is ranked refers to the definition, or uses a member of it. -/
theorem refers_of_inboundKinds {kind : Slot × List Edge × List Edge}
    (hkind : kind ∈ inboundKinds (symbolRefs (loadGraphIndexWith graph opts) id))
    (he : e ∈ kind.2.1 ∨ e ∈ kind.2.2) :
    e ∈ graph.edges ∧ (Precise opts id e ∨ Guessed opts id e ∨
      ∃ x ∈ enumMembers (loadGraphIndexWith graph opts) id, UsesMemberOf opts x.id e) := by
  have hinbound : ∀ slot, e ∈ SlotTable.at (loadGraphIndexWith graph opts).inbound id slot →
      e ∈ graph.edges ∧ (Precise opts id e ∨ Guessed opts id e ∨
        ∃ x ∈ enumMembers (loadGraphIndexWith graph opts) id, UsesMemberOf opts x.id e) :=
    fun slot h => ⟨(precise_of_mem_inbound h).1, Or.inl (precise_of_mem_inbound h).2⟩
  have hguess : ∀ slot ∈ [Slot.inherits, Slot.usesType, Slot.usesMember],
      e ∈ SlotTable.at (loadGraphIndexWith graph opts).heuristicInbound id slot →
      e ∈ graph.edges ∧ (Precise opts id e ∨ Guessed opts id e ∨
        ∃ x ∈ enumMembers (loadGraphIndexWith graph opts) id, UsesMemberOf opts x.id e) :=
    fun slot hslot h =>
      ⟨(guessed_of_mem_heuristic h hslot).1, Or.inr (Or.inl (guessed_of_mem_heuristic h hslot).2)⟩
  have hmember : ∀ x ∈ enumMembers (loadGraphIndexWith graph opts) id,
      e ∈ SlotTable.at (loadGraphIndexWith graph opts).inbound x.id .usesMember ∨
        e ∈ SlotTable.at (loadGraphIndexWith graph opts).heuristicInbound x.id .usesMember →
      e ∈ graph.edges ∧ (Precise opts id e ∨ Guessed opts id e ∨
        ∃ x ∈ enumMembers (loadGraphIndexWith graph opts) id, UsesMemberOf opts x.id e) :=
    fun x hx h => ⟨(mem_usesMember_iff.mp h).1, Or.inr (Or.inr ⟨x, hx, (mem_usesMember_iff.mp h).2⟩)⟩
  simp only [inboundKinds, symbolRefs, List.mem_cons, List.not_mem_nil, or_false] at hkind
  -- nine kinds; guesses stand under the first three, members under the third only
  rcases hkind with rfl | rfl | rfl | rfl | rfl | rfl | rfl | rfl | rfl
  · rcases he with he | he
    · exact hinbound _ he
    · exact hguess _ (by decide) he
  · rcases he with he | he
    · exact hinbound _ he
    · exact hguess _ (by decide) he
  · rcases he with he | he
    · rcases List.mem_append.mp he with he | he
      · exact hinbound _ he
      · obtain ⟨x, hx, he⟩ := List.mem_flatMap.mp he
        exact hmember x hx (Or.inl he)
    · rcases List.mem_append.mp he with he | he
      · exact hguess _ (by decide) he
      · obtain ⟨x, hx, he⟩ := List.mem_flatMap.mp he
        exact hmember x hx (Or.inr he)
  all_goals exact hinbound _ (he.resolve_right List.not_mem_nil)

/-- A use of an enum's member is ranked for the enum. -/
theorem exists_inboundKinds {x : Def} (hx : x ∈ enumMembers (loadGraphIndexWith graph opts) id)
    (he : e ∈ graph.edges) (huses : UsesMemberOf opts x.id e) :
    ∃ kind ∈ inboundKinds (symbolRefs (loadGraphIndexWith graph opts) id),
      e ∈ kind.2.1 ∨ e ∈ kind.2.2 := by
  refine ⟨(.usesMember, _, _), List.mem_cons_of_mem _ (List.mem_cons_of_mem _ List.mem_cons_self), ?_⟩
  rcases mem_usesMember_iff.mpr ⟨he, huses⟩ with h | h
  · exact Or.inl (List.mem_append_right _ (List.mem_flatMap.mpr ⟨x, hx, h⟩))
  · exact Or.inr (List.mem_append_right _ (List.mem_flatMap.mpr ⟨x, hx, h⟩))

/-- The ambiguous rows are references the definition is a candidate of. -/
theorem refers_of_ambiguousRow {model : RefsModel} {allOut : Bool} {row : AmbiguousRow}
    (hmodel : buildRefsModel (loadGraphIndexWith graph opts) id cap inboundCap allOut = some model)
    (hrow : row ∈ model.ambiguousInbound) : Refers graph opts settings id row.file true none := by
  obtain ⟨d, -, rfl⟩ := Option.map_eq_some_iff.mp hmodel
  obtain ⟨e, he, hrow⟩ := List.mem_filterMap.mp hrow
  have hmem := (List.perm_insertionSort _ _).mem_iff.mp (List.mem_of_mem_take he)
  obtain ⟨hedge, origin, fromFile, fromLine, candidates, rfl, hcand⟩ := mem_ambiguousByCandidate.mp hmem
  cases hrow
  exact .ambiguous hedge hcand

end Listed

/-! ## What the blast radius covers -/

section Covered

variable (graph : Graph) (opts : IndexOptions) (settings : Settings) (id : Str)

/-- The blast radius covers the answer: every file of an uncapped row, other than the
definition's own, is visited from the definition in any number of hops. -/
def RefsCovered : Prop :=
  ∀ cap inboundCap model,
    buildRefsModel (loadGraphIndexWith graph opts) id cap inboundCap true = some model →
    ∀ f ∉ (loadGraphIndexWith graph opts).defFiles id,
      ((∃ row ∈ model.inbound, row.file = f) ∨ ∃ row ∈ model.ambiguousInbound, row.file = f) →
    ∀ hops, 1 ≤ hops →
      ∃ v, (impactWalk (loadGraphIndexWith graph opts) [id] hops settings).visited.get? f = some v

/-- Every other file that uses a member of the enum is led to from the enum itself. -/
def MembersCovered : Prop :=
  ∀ x ∈ enumMembers (loadGraphIndexWith graph opts) id, ∀ e ∈ graph.edges, UsesMemberOf opts x.id e →
    e.loc.1 ∉ (loadGraphIndexWith graph opts).defFiles id → Touches graph opts settings id e.loc.1

variable {graph opts settings id} {f : Str} {hops : Nat}

theorem mem_seedFilesOf_singleton {index : GraphIndex} :
    f ∈ seedFilesOf index [id] ↔ f ∈ index.defFiles id := by
  unfold seedFilesOf
  rw [List.mem_eraseDups, List.flatMap_singleton]

/-- In one hop the walk visits what the definition touches. -/
theorem visited_one_iff (hf : f ∉ (loadGraphIndexWith graph opts).defFiles id) :
    (∃ v, (impactWalk (loadGraphIndexWith graph opts) [id] 1 settings).visited.get? f = some v) ↔
      Touches graph opts settings id f := by
  rw [exists_visited_iff, mem_seedFilesOf_singleton]
  constructor
  · rintro ⟨-, n, hle, m, rfl, d, hchain, htouch⟩
    rw [show m = 0 by omega, chain_zero, List.mem_singleton] at hchain
    rwa [hchain] at htouch
  · exact fun htouch => ⟨hf, 1, le_rfl, 0, rfl, id, .here (List.mem_singleton_self id), htouch⟩

/-- **When the blast radius covers the references.** It covers the files of the answer about
a definition if and only if every other file that uses a member of it, where it is an enum,
is led to from the enum itself. -/
theorem refsCovered_iff (graph : Graph) (opts : IndexOptions) (settings : Settings) (id : Str) :
    RefsCovered graph opts settings id ↔ MembersCovered graph opts settings id := by
  constructor
  · intro hcovered x hx e he huses hfile
    obtain ⟨kind, hkind, hin⟩ := exists_inboundKinds hx he huses
    obtain ⟨model, hmodel⟩ : ∃ model,
        buildRefsModel (loadGraphIndexWith graph opts) id 0 0 true = some model := by
      obtain ⟨d, hd⟩ := exists_findDef_of_mem hx
      exact ⟨_, Option.map_eq_some_iff.mpr ⟨d, hd, rfl⟩⟩
    have hrow := (exists_row_iff hmodel).mpr ⟨kind, hkind, e, hin, rfl⟩
    exact (visited_one_iff hfile).mp (hcovered 0 0 model hmodel _ hfile (Or.inl hrow) 1 le_rfl)
  · intro hmembers cap inboundCap model hmodel f hf hrow hops hhops
    have htouch : Touches graph opts settings id f := by
      rcases hrow with hrow | ⟨row, hrow, rfl⟩
      · obtain ⟨kind, hkind, e, hin, rfl⟩ := (exists_row_iff hmodel).mp hrow
        obtain ⟨he, hprecise | hguess | ⟨x, hx, huses⟩⟩ := refers_of_inboundKinds hkind hin
        · exact ⟨true, _, .precise he hprecise rfl⟩
        · exact ⟨false, none, .guess he hguess rfl⟩
        · exact hmembers x hx e he huses hf
      · exact ⟨true, none, refers_of_ambiguousRow hmodel hrow⟩
    refine exists_visited_iff.mpr ⟨mt mem_seedFilesOf_singleton.mp hf, 1, hhops, 0, rfl, id, ?_, htouch⟩
    exact .here (List.mem_singleton_self id)

end Covered

/-! ## An enum used by a member alone -/

/-- `Runner` reads `Toggles.EnableX` and never names `Toggles` otherwise. -/
def memberOnly : Graph where
  defs := [⟨"Toggles".toList, "Toggles".toList, "enum".toList, "toggles.cs".toList, [], []⟩,
    ⟨"Toggles.EnableX".toList, "EnableX".toList, "enum-member".toList, "toggles.cs".toList, [], []⟩,
    ⟨"Runner".toList, "Runner".toList, "class".toList, "runner.cs".toList, [], []⟩]
  edges := [.usesMember "runner.cs".toList 6 "Toggles.EnableX".toList "toggles.cs".toList false none]
  unitIsTest := fun _ => false

/-- The answer about the enum lists `runner.cs`, and its blast radius leaves it out. -/
theorem memberOnly_not_covered :
    ¬ RefsCovered memberOnly ⟨true, true, true⟩ ⟨true, 8, 34⟩ "Toggles".toList := by
  intro h
  have hlisted : (buildRefsModel (loadGraphIndexWith memberOnly ⟨true, true, true⟩) "Toggles".toList 10 10
      true).map (fun model => model.inbound) =
        some [⟨.usesMember, "runner.cs".toList, 6, false, none⟩] := by decide +kernel
  obtain ⟨model, hmodel, hrows⟩ := Option.map_eq_some_iff.mp hlisted
  obtain ⟨v, hv⟩ := h 10 10 model hmodel "runner.cs".toList (by decide +kernel)
    (Or.inl ⟨_, by rw [hrows]; exact List.mem_singleton_self _, rfl⟩) 2 (by decide)
  have hnone : (impactWalk (loadGraphIndexWith memberOnly ⟨true, true, true⟩) ["Toggles".toList] 2
      ⟨true, 8, 34⟩).visited.get? "runner.cs".toList = none := by decide +kernel
  rw [hnone] at hv
  cases hv

end Devscout.Query
