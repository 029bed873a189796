/-
# Devscout.Resolve.Lookups -- what the lookups of an index hold

Of a definition only its id, its names, its kind and its number of type parameters decide
where the lookups have it, and no later declaration changes these. The lookup by id has the
first definition of an id, the one by id and number of type parameters the only one, and the
one by simple name all of a name in their order, enum members left out.
-/

import Devscout.Resolve.Index

namespace Devscout.Resolve

open Lib

/-- What of a definition the lookups depend on. -/
structure Shape where
  id : Str
  name : Str
  namespace_ : Str
  kind : Str
  arity : Nat
  deriving DecidableEq

namespace Shape

def isMember (s : Shape) : Bool := s.kind == "enum-member".toList

theorem isMember_iff {s : Shape} : s.isMember = true ↔ s.kind = "enum-member".toList := beq_iff_eq

/-- Found by the simple name. -/
def carries (name : Str) (s : Shape) : Bool := s.name == name && !s.isMember

end Shape

def IndexedDef.shape (row : IndexedDef) : Shape where
  id := row.def_.id
  name := row.def_.name
  namespace_ := row.def_.namespace_
  kind := row.def_.kind
  arity := row.lists.typeParams.length

def FragDef.shape (d : FragDef) : Shape where
  id := d.id
  name := d.name
  namespace_ := d.namespace_
  kind := d.kind
  arity := d.typeParams.length

def DefIndex.shapes (index : DefIndex) : List Shape := index.defs.map IndexedDef.shape

theorem lists_of_shapes {index : DefIndex} {i : Nat} {s : Shape} (h : index.shapes[i]? = some s) :
    (index.lists i).typeParams.length = s.arity ∧ (index.def_ i).id = s.id := by
  rw [DefIndex.shapes, List.getElem?_map] at h
  obtain ⟨row, hrow, rfl⟩ := Option.map_eq_some_iff.mp h
  rw [DefIndex.lists, DefIndex.def_, List.getD_eq_getElem?_getD, hrow]
  exact ⟨rfl, rfl⟩

/-- Where the definitions found by a simple name stand. -/
def carriers (shapes : List Shape) (name : Str) : List Nat :=
  (List.range shapes.length).filter fun i => shapes[i]?.any (Shape.carries name)

/-- **What the lookups hold,** in terms of the definitions. -/
structure Lookups (index : DefIndex) : Prop where
  byId : ∀ id, index.qualifiedNameToDef.get? id = index.shapes.findIdx? fun s => s.id == id
  byArity : ∀ id arity, index.qualifiedNameAndArityToDef.get? (id, arity) =
    index.shapes.findIdx? fun s => s.id == id && s.arity == arity
  byName : ∀ name, (index.simpleNameToDefs.get? name).getD [] = carriers index.shapes name
  distinct : index.shapes.Pairwise fun s t => ¬ (s.id = t.id ∧ s.arity = t.arity)

/-! ## One declaration -/

theorem typeParams_pairOverloadCounts (lists : MemberLists) (d : FragDef) :
    (pairOverloadCounts lists d).typeParams = lists.typeParams := by
  have hone : ∀ lists e, (pairCounts d lists e).typeParams = lists.typeParams := by
    intro lists e
    unfold pairCounts
    split <;> rfl
  unfold pairOverloadCounts
  induction d.methodArities.entries generalizing lists with
  | nil => rfl
  | cons e es ih => rw [List.foldl_cons, ih, hone]

theorem shape_newRow (file : Str) (d : FragDef) : (newRow file d).shape = d.shape := by
  simp [IndexedDef.shape, FragDef.shape, newRow, typeParams_pairOverloadCounts]

theorem shape_mergeRow (file : Str) (d : FragDef) (row : IndexedDef) :
    (mergeRow file d row).shape = row.shape := by
  simp [IndexedDef.shape, mergeRow, typeParams_pairOverloadCounts]

theorem map_shape_modify (rows : List IndexedDef) (i : Nat) {f : IndexedDef → IndexedDef}
    (hf : ∀ row, (f row).shape = row.shape) :
    (rows.modify i f).map IndexedDef.shape = rows.map IndexedDef.shape := by
  apply List.ext_getElem?
  intro j
  rw [List.getElem?_map, List.getElem?_map, List.getElem?_modify]
  cases rows[j]? with
  | none => rfl
  | some row =>
      show some (IndexedDef.shape _) = some row.shape
      split
      · rw [hf]
      · rfl

/-- The lookups and all they depend on are the same. -/
structure SameLookups (index index' : DefIndex) : Prop where
  shapes : index'.shapes = index.shapes
  byId : index'.qualifiedNameToDef = index.qualifiedNameToDef
  byArity : index'.qualifiedNameAndArityToDef = index.qualifiedNameAndArityToDef
  byName : index'.simpleNameToDefs = index.simpleNameToDefs

theorem sameLookups_addExtensionMethods (idx : Nat) (index : DefIndex)
    (entries : List FragExtensionMethod) :
    SameLookups index (entries.foldl (addExtensionMethod idx) index) := by
  have hone : ∀ index entry, SameLookups index (addExtensionMethod idx index entry) := by
    intro index entry
    unfold addExtensionMethod
    dsimp only
    split
    · exact ⟨rfl, rfl, rfl, rfl⟩
    · refine ⟨?_, rfl, rfl, rfl⟩
      show List.map IndexedDef.shape (if _ then _ else _) = List.map IndexedDef.shape _
      split
      · rfl
      · exact map_shape_modify _ _ fun _ => rfl
  induction entries generalizing index with
  | nil => exact ⟨rfl, rfl, rfl, rfl⟩
  | cons entry entries ih =>
      have hfirst := hone index entry
      have hrest := ih (addExtensionMethod idx index entry)
      exact ⟨hrest.shapes.trans hfirst.shapes, hrest.byId.trans hfirst.byId,
        hrest.byArity.trans hfirst.byArity, hrest.byName.trans hfirst.byName⟩

theorem Lookups.of_same {index index' : DefIndex} (h : Lookups index)
    (hsame : SameLookups index index') : Lookups index' where
  byId := by rw [hsame.byId, hsame.shapes]; exact h.byId
  byArity := by rw [hsame.byArity, hsame.shapes]; exact h.byArity
  byName := by rw [hsame.byName, hsame.shapes]; exact h.byName
  distinct := by rw [hsame.shapes]; exact h.distinct

theorem carriers_concat (shapes : List Shape) (s : Shape) (name : Str) :
    carriers (shapes ++ [s]) name =
      carriers shapes name ++ if s.carries name then [shapes.length] else [] := by
  unfold carriers
  rw [List.length_append, List.length_singleton, List.range_succ, List.filter_append]
  congr 1
  · refine List.filter_congr fun i hi => ?_
    rw [List.getElem?_append_left (List.mem_range.mp hi)]
  · rw [List.filter_singleton, List.getElem?_concat_length]
    simp

theorem getD_get?_pushAt {K α : Type} [DecidableEq K] (m : OrderedMap K (List α)) (k k' : K) (a : α) :
    ((pushAt m k a).get? k').getD [] = (m.get? k').getD [] ++ if k' = k then [a] else [] := by
  rw [pushAt, OrderedMap.get?_insert]
  split
  · rename_i hk
    rw [hk]
    rfl
  · rw [List.append_nil]

/-- A new definition is put at the end, and into the lookups that do not have its key yet. -/
theorem Lookups.concat {index index' : DefIndex} (h : Lookups index) {s : Shape}
    (hnew : index.qualifiedNameAndArityToDef.get? (s.id, s.arity) = none)
    (hshapes : index'.shapes = index.shapes ++ [s])
    (hid : index'.qualifiedNameToDef =
      if (index.qualifiedNameToDef.get? s.id).isNone then
        index.qualifiedNameToDef.insert s.id index.shapes.length
      else index.qualifiedNameToDef)
    (harity : index'.qualifiedNameAndArityToDef =
      index.qualifiedNameAndArityToDef.insert (s.id, s.arity) index.shapes.length)
    (hname : index'.simpleNameToDefs =
      if s.kind = "enum-member".toList then index.simpleNameToDefs
      else pushAt index.simpleNameToDefs s.name index.shapes.length) : Lookups index' where
  byId := by
    intro id
    rw [hid, hshapes, List.findIdx?_append, ← h.byId id, List.findIdx?_singleton]
    by_cases hs : s.id = id
    · subst hs
      rw [if_pos (beq_self_eq_true _)]
      cases hget : index.qualifiedNameToDef.get? s.id with
      | none => simp [OrderedMap.get?_insert]
      | some i => simp [hget]
    · have hne : (s.id == id) = false := by simpa using hs
      rw [hne]
      split
      · rw [OrderedMap.get?_insert, if_neg (Ne.symm hs)]
        simp
      · simp
  byArity := by
    intro id arity
    rw [harity, hshapes, List.findIdx?_append, ← h.byArity id arity, List.findIdx?_singleton,
      OrderedMap.get?_insert]
    by_cases hs : s.id = id ∧ s.arity = arity
    · obtain ⟨rfl, rfl⟩ := hs
      rw [if_pos rfl, hnew]
      simp
    · have hne : ((id, arity) : Str × Nat) ≠ (s.id, s.arity) := by
        rintro heq
        exact hs ⟨(Prod.mk.inj heq).1.symm, (Prod.mk.inj heq).2.symm⟩
      have hfalse : (s.id == id && s.arity == arity) = false := by
        simpa [not_and] using hs
      rw [if_neg hne, hfalse]
      simp
  byName := by
    intro name
    rw [hname, hshapes, carriers_concat, ← h.byName name]
    by_cases hmember : s.isMember = true
    · rw [if_pos (Shape.isMember_iff.mp hmember), if_neg (by simp [Shape.carries, hmember]),
        List.append_nil]
    · rw [if_neg fun hkind => hmember (Shape.isMember_iff.mpr hkind), getD_get?_pushAt]
      by_cases hs : name = s.name
      · rw [if_pos hs, if_pos (by simp [Shape.carries, hmember, hs])]
      · rw [if_neg hs, if_neg (by simp [Shape.carries, Ne.symm hs])]
  distinct := by
    rw [hshapes]
    refine List.pairwise_append.mpr ⟨h.distinct, List.pairwise_singleton _ _, fun t ht u hu => ?_⟩
    rw [List.mem_singleton.mp hu]
    rw [h.byArity] at hnew
    have hnot := List.findIdx?_eq_none_iff.mp hnew t ht
    simpa using hnot

/-- **One declaration keeps the lookups,** and adds its own shape unless its key is there. -/
theorem Lookups.addDeclaration {index : DefIndex} (h : Lookups index) (file : Str) (d : FragDef) :
    Lookups (addDeclaration index file d) ∧
      ((Resolve.addDeclaration index file d).shapes = index.shapes ∧ (∃ s ∈ index.shapes, s.id = d.id) ∨
        (Resolve.addDeclaration index file d).shapes = index.shapes ++ [d.shape]) := by
  unfold Resolve.addDeclaration
  dsimp only
  split
  · rename_i hnew
    have hsame := sameLookups_addExtensionMethods index.defs.length
      { index with defs := index.defs ++ [newRow file d] } d.extensionMethods
    have hshapes := hsame.shapes
    rw [show DefIndex.shapes { index with defs := index.defs ++ [newRow file d] } =
      index.shapes ++ [d.shape] by simp [DefIndex.shapes, shape_newRow]] at hshapes
    have hlength : index.defs.length = index.shapes.length := by simp [DefIndex.shapes]
    refine ⟨h.concat hnew hshapes ?_ ?_ ?_, .inr hshapes⟩
    · rw [← hlength]
      simp only [hsame.byId]
      rfl
    · rw [← hlength]
      simp only [hsame.byArity]
      rfl
    · rw [← hlength]
      simp only [hsame.byName]
      rfl
  · rename_i idx hkey
    have hthere : ∃ s ∈ index.shapes, s.id = d.id := by
      rw [h.byArity] at hkey
      obtain ⟨hlt, hp, -⟩ := List.findIdx?_eq_some_iff_getElem.mp hkey
      exact ⟨index.shapes[idx], List.getElem_mem hlt, (by simpa using hp : _ ∧ _).1⟩
    have hmerged : SameLookups index { index with defs := index.defs.modify idx (mergeRow file d) } :=
      ⟨map_shape_modify _ _ (shape_mergeRow file d), rfl, rfl, rfl⟩
    have hsame := sameLookups_addExtensionMethods idx
      { index with defs := index.defs.modify idx (mergeRow file d) } d.extensionMethods
    exact ⟨(h.of_same hmerged).of_same hsame, .inl ⟨hsame.shapes.trans hmerged.shapes, hthere⟩⟩

/-! ## All of them -/

theorem lookups_empty : Lookups .empty where
  byId := fun _ => rfl
  byArity := fun _ _ => rfl
  byName := fun _ => rfl
  distinct := List.Pairwise.nil

/-- **The lookups of a built index,** and what definitions it has: those declared. -/
theorem lookups_buildDefIndex (fragments : Fragments) :
    Lookups (buildDefIndex fragments) ∧
      (∀ s ∈ (buildDefIndex fragments).shapes, ∃ f ∈ fragments, ∃ d ∈ f.2.defs, d.shape = s) ∧
      ∀ f ∈ fragments, ∀ d ∈ f.2.defs, ∃ s ∈ (buildDefIndex fragments).shapes, s.id = d.id := by
  have hfold : ∀ (ds : List (Str × FragDef)) (index : DefIndex), Lookups index →
      let built := ds.foldl (fun index e => addDeclaration index e.1 e.2) index
      Lookups built ∧ (∀ s ∈ built.shapes, s ∈ index.shapes ∨ ∃ e ∈ ds, e.2.shape = s) ∧
        (∀ s ∈ index.shapes, s ∈ built.shapes) ∧ ∀ e ∈ ds, ∃ s ∈ built.shapes, s.id = e.2.id := by
    intro ds
    induction ds with
    | nil => exact fun index h => ⟨h, fun s hs => .inl hs, fun s hs => hs, fun e he => nomatch he⟩
    | cons e ds ih =>
        intro index h
        obtain ⟨hadded, hshapes⟩ := h.addDeclaration e.1 e.2
        obtain ⟨hrest, hfrom, hkept, hdeclared⟩ := ih _ hadded
        have hgrown : ∀ s ∈ index.shapes, s ∈ (addDeclaration index e.1 e.2).shapes := by
          intro s hs
          rcases hshapes with ⟨hshapes, -⟩ | hshapes
          · rwa [hshapes]
          · rw [hshapes]
            exact List.mem_append_left _ hs
        have hfirst : ∃ s ∈ (addDeclaration index e.1 e.2).shapes, s.id = e.2.id := by
          rcases hshapes with ⟨-, s, hs, hid⟩ | hshapes
          · exact ⟨s, hgrown s hs, hid⟩
          · exact ⟨e.2.shape, by rw [hshapes]; simp, rfl⟩
        refine ⟨hrest, fun s hs => ?_, fun s hs => hkept s (hgrown s hs), ?_⟩
        · rcases hfrom s hs with hs | ⟨e', he', hs⟩
          · rcases hshapes with ⟨hshapes, -⟩ | hshapes
            · exact .inl (hshapes ▸ hs)
            · rw [hshapes, List.mem_append, List.mem_singleton] at hs
              exact hs.imp_right fun hs => ⟨e, List.mem_cons_self, hs.symm⟩
          · exact .inr ⟨e', List.mem_cons_of_mem e he', hs⟩
        · intro e' he'
          rcases List.mem_cons.mp he' with rfl | he'
          · obtain ⟨s, hs, hid⟩ := hfirst
            exact ⟨s, hkept s hs, hid⟩
          · exact hdeclared e' he'
  obtain ⟨h, hfrom, -, hdeclared⟩ := hfold (declarations fragments) .empty lookups_empty
  refine ⟨⟨h.byId, h.byArity, h.byName, h.distinct⟩, fun s hs => ?_, fun f hf d hd => ?_⟩
  · rcases hfrom s hs with hs | ⟨e, he, hs⟩
    · cases hs
    · obtain ⟨f, hf, he⟩ := List.mem_flatMap.mp he
      obtain ⟨d, hd, rfl⟩ := List.mem_map.mp he
      exact ⟨f, hf, d, hd, hs⟩
  · exact hdeclared (f.1, d) (List.mem_flatMap.mpr ⟨f, hf, List.mem_map.mpr ⟨d, hd, rfl⟩⟩)

end Devscout.Resolve
