/-
# Devscout.ProjectGraph -- who owns a file, and which projects a project sees

The project model answers two questions: which project a file belongs to, and whether one
project reaches another through references. Both answers are positions in the list of
projects sorted by path, and both are looked up in tables made when the model is built.

A later process builds the model again from what was persisted, which leaves the directories
out. The tables come out the same, so that positions mean the same, and what they answer is
what one would say without them: reachability is the closure of the references that resolve,
and the owner is the project of the nearest directory above the file with one project only.
-/

import Devscout.Project
import Devscout.Lib.BreadthFirst

namespace Devscout

open Lib Lib.Text Lib.Files

/-! ## The tables -/

/-- The project model with its tables. -/
structure ProjectTables where
  units : List ProjectUnit
  dirToUnit : OrderedMap Str Nat
  closure : List (List Nat)

/-- `id_to_index`. -/
def idToIndex (units : List ProjectUnit) : OrderedMap Str Nat :=
  OrderedMap.empty.insertAll (units.zipIdx.map fun e => (e.1.id, e.2))

/-- `dir_counts`: how many units a directory has. -/
def dirCount (units : List ProjectUnit) (dir : Str) : Nat := units.countP fun u => u.dir == dir

/-- `dir_to_unit`: only directories with one unit are in it. -/
def dirToUnit (units : List ProjectUnit) : OrderedMap Str Nat :=
  OrderedMap.empty.insertAll
    ((units.zipIdx.filter fun e => dirCount units e.1.dir == 1).map fun e => (e.1.dir, e.2))

/-- The references of a unit that resolve; the others are skipped. -/
def resolvedRefs (units : List ProjectUnit) (i : Nat) : List Nat :=
  (units[i]?.elim [] ProjectUnit.refs).filterMap (idToIndex units).get?

/-- `build_closure`: a breadth-first search from every unit. -/
def buildClosure (units : List ProjectUnit) : List (List Nat) :=
  (List.range units.length).map fun i =>
    (BreadthFirst.search (resolvedRefs units) (units.length + 1) (BreadthFirst.start i)).found

/-- `ProjectModel::from_units`, with the tables. -/
def ProjectTables.fromUnits (units : List ProjectUnit) : ProjectTables :=
  let sorted := (ProjectModel.fromUnits units).units
  { units := sorted, dirToUnit := Devscout.dirToUnit sorted, closure := buildClosure sorted }

theorem dirOf_length_lt {dir : Str} (h : dir ≠ []) : (dirOf dir).length < dir.length := by
  unfold dirOf
  split
  · rename_i a b hsplit
    rw [(rsplit_eq_some hsplit).1, List.length_append, List.length_cons]
    omega
  · exact List.length_pos_iff.mpr h

/-- The loop of `unit_of_file`: from a directory up to the root. -/
def climb (owner : Str → Option Nat) (dir : Str) : Option Nat :=
  match owner dir with
  | some i => some i
  | none => if dir = [] then none else climb owner (dirOf dir)
termination_by dir.length
decreasing_by exact dirOf_length_lt ‹_›

/-- `unit_of_file`. -/
def ProjectTables.unitOfFile (m : ProjectTables) (rel : Str) : Option Nat := climb m.dirToUnit.get? (dirOf rel)

/-- `reachable`. -/
def ProjectTables.reachable (m : ProjectTables) (source target : Nat) : Bool :=
  source == target || m.closure[source]?.any fun c => c.contains target

/-- `units_from_graph`: the directory is taken from the path again. -/
def unitsFromGraph (rows : List GraphUnit) : List ProjectUnit :=
  rows.map fun r => { id := r.id, name := r.name, dir := dirOf r.id, refs := r.refs, test := r.test }

/-! ## What the tables stand for -/

/-- A unit refers to another by its path. -/
def Refers (units : List ProjectUnit) (i j : Nat) : Prop :=
  ∃ u v, units[i]? = some u ∧ units[j]? = some v ∧ v.id ∈ u.refs

/-- The only unit in a directory. -/
def Sole (units : List ProjectUnit) (dir : Str) (i : Nat) : Prop :=
  ∃ u, units[i]? = some u ∧ u.dir = dir ∧ ∀ (j : Nat) (v : ProjectUnit), units[j]? = some v → v.dir = dir → j = i

/-- The root, or a directory that the path goes through. -/
def Above (rel dir : Str) : Prop := dir = [] ∨ dir ++ ['/'] <+: rel

/-- The only unit of its directory, which is the nearest one above a file with only one. -/
def Nearest (units : List ProjectUnit) (rel : Str) (i : Nat) : Prop :=
  ∃ dir, Above rel dir ∧ Sole units dir i ∧
    ∀ dir', Above rel dir' → dir.length < dir'.length → ∀ j, ¬Sole units dir' j

/-! ## The index of a path -/

section Index

variable {units : List ProjectUnit}

/-- A list in which one element passes has it in one place only. -/
theorem countP_eq_one_iff {α : Type} {p : α → Bool} {l : List α} {i : Nat} {a : α} (ha : l[i]? = some a)
    (hp : p a = true) : l.countP p = 1 ↔ ∀ (j : Nat) (b : α), l[j]? = some b → p b = true → j = i := by
  induction l generalizing i with
  | nil => cases ha
  | cons x l ih =>
      rcases i with _ | i
      · cases ha
        rw [List.countP_cons_of_pos hp, Nat.add_eq_right, List.countP_eq_zero]
        constructor
        · rintro hnone (_ | j) b hb hpb
          · rfl
          · exact absurd hpb (hnone b (List.mem_of_getElem? hb))
        · intro hall b hb hpb
          obtain ⟨j, hj⟩ := List.mem_iff_getElem?.mp hb
          exact absurd (hall (j + 1) b hj hpb) (Nat.succ_ne_zero j)
      · have htail : l[i]? = some a := ha
        by_cases hx : p x = true
        · rw [List.countP_cons_of_pos hx]
          have hpos : 0 < l.countP p := List.countP_pos_iff.mpr ⟨a, List.mem_of_getElem? htail, hp⟩
          constructor
          · intro h
            omega
          · intro hall
            exact absurd (hall 0 x rfl hx) (Nat.succ_ne_zero i).symm
        · rw [List.countP_cons_of_neg hx, ih htail]
          constructor
          · rintro hall (_ | j) b hb hpb
            · cases hb
              exact absurd hpb hx
            · rw [hall j b hb hpb]
          · intro hall j b hb hpb
            exact Nat.succ.inj (hall (j + 1) b hb hpb)

theorem mem_zipIdx_map {γ : Type} {f : ProjectUnit × Nat → γ} {c : γ} {p : ProjectUnit × Nat → Bool} :
    c ∈ ((units.zipIdx.filter p).map f) ↔ ∃ i u, units[i]? = some u ∧ p (u, i) = true ∧ f (u, i) = c := by
  constructor
  · intro h
    obtain ⟨⟨u, i⟩, hmem, rfl⟩ := List.mem_map.mp h
    obtain ⟨hmem, hp⟩ := List.mem_filter.mp hmem
    exact ⟨i, u, List.mem_zipIdx_iff_getElem?.mp hmem, hp, rfl⟩
  · rintro ⟨i, u, hu, hp, rfl⟩
    exact List.mem_map_of_mem (List.mem_filter.mpr ⟨List.mem_zipIdx_iff_getElem?.mpr hu, hp⟩)

/-- A directory is found exactly when it has one unit. -/
theorem dirToUnit_iff {dir : Str} {i : Nat} : (dirToUnit units).get? dir = some i ↔ Sole units dir i := by
  have hmem (d : Str) (j : Nat) :
      (d, j) ∈ ((units.zipIdx.filter fun e => dirCount units e.1.dir == 1).map fun e => (e.1.dir, e.2)) ↔
        Sole units d j := by
    rw [mem_zipIdx_map]
    constructor
    · rintro ⟨k, u, hu, hone, heq⟩
      cases heq
      refine ⟨u, hu, rfl, fun j v hv hdir => ?_⟩
      exact (countP_eq_one_iff hu (beq_self_eq_true u.dir)).mp (beq_iff_eq.mp hone) j v hv (beq_iff_eq.mpr hdir)
    · rintro ⟨u, hu, rfl, hsole⟩
      refine ⟨j, u, hu, beq_iff_eq.mpr ?_, rfl⟩
      exact (countP_eq_one_iff hu (beq_self_eq_true u.dir)).mpr fun k v hv hdir => hsole k v hv (beq_iff_eq.mp hdir)
  unfold dirToUnit
  rw [OrderedMap.get?_insertAll_iff, hmem]
  rintro ⟨d, j⟩ he ⟨d', j'⟩ he' hkey
  obtain rfl : d = d' := hkey
  obtain ⟨u, hu, hdir, -⟩ := (hmem d j).mp he
  obtain ⟨u', hu', hdir', hsole⟩ := (hmem d j').mp he'
  exact hsole j u hu hdir

variable (hids : (units.map ProjectUnit.id).Nodup)

include hids

/-- Distinct paths are found where they stand. -/
theorem idToIndex_iff {id : Str} {i : Nat} :
    (idToIndex units).get? id = some i ↔ ∃ u, units[i]? = some u ∧ u.id = id := by
  have hmem (d : Str) (j : Nat) :
      (d, j) ∈ (units.zipIdx.map fun e => (e.1.id, e.2)) ↔ ∃ u, units[j]? = some u ∧ u.id = d := by
    rw [List.mem_map]
    constructor
    · rintro ⟨⟨u, k⟩, hu, heq⟩
      cases heq
      exact ⟨u, List.mem_zipIdx_iff_getElem?.mp hu, rfl⟩
    · rintro ⟨u, hu, rfl⟩
      exact ⟨(u, j), List.mem_zipIdx_iff_getElem?.mpr hu, rfl⟩
  unfold idToIndex
  rw [OrderedMap.get?_insertAll_iff, hmem]
  rintro ⟨d, j⟩ he ⟨d', j'⟩ he' hkey
  obtain rfl : d = d' := hkey
  obtain ⟨u, hu, hid⟩ := (hmem d j).mp he
  obtain ⟨u', hu', hid'⟩ := (hmem d j').mp he'
  have hget {k : Nat} {w : ProjectUnit} (hw : units[k]? = some w) : (units.map ProjectUnit.id)[k]? = some w.id := by
    rw [List.getElem?_map, hw, Option.map_some]
  have hlt : j < (units.map ProjectUnit.id).length := (List.getElem?_eq_some_iff.mp (hget hu)).1
  exact (List.getElem?_inj hlt hids).mp (by rw [hget hu, hget hu', hid, hid'])

theorem mem_resolvedRefs {i j : Nat} : j ∈ resolvedRefs units i ↔ Refers units i j := by
  rw [resolvedRefs, List.mem_filterMap]
  constructor
  · rintro ⟨ref, href, hget⟩
    rcases hu : units[i]? with _ | u
    · rw [hu] at href
      cases href
    · rw [hu] at href
      obtain ⟨v, hv, rfl⟩ := (idToIndex_iff hids).mp hget
      exact ⟨u, v, hu, hv, href⟩
  · rintro ⟨u, v, hu, hv, href⟩
    refine ⟨v.id, ?_, (idToIndex_iff hids).mpr ⟨v, hv, rfl⟩⟩
    rw [hu]
    exact href

end Index

/-! ## The owner of a file -/

theorem parents_eq (s : Str) : parents s = if '/' ∈ s then dirOf s :: parents (dirOf s) else [] := by
  rcases hsplit : rsplit '/' s with _ | ⟨a, b⟩
  · rw [if_neg (rsplit_eq_none_iff.mp hsplit)]
    refine List.eq_nil_iff_forall_not_mem.mpr fun d hd => rsplit_eq_none_iff.mp hsplit ?_
    exact (mem_parents_iff.mp hd).subset (List.mem_append_right d List.mem_cons_self)
  · obtain ⟨rfl, hb⟩ := rsplit_eq_some hsplit
    rw [if_pos (List.mem_append_right a List.mem_cons_self), dirOf, hsplit, parents_append a hb]

theorem climb_eq (owner : Str → Option Nat) (dir : Str) :
    climb owner dir = (dir :: (parents dir ++ [[]])).findSome? owner := by
  induction hlen : dir.length using Nat.strongRecOn generalizing dir with
  | ind n ih =>
      subst hlen
      rw [climb, List.findSome?_cons]
      rcases howner : owner dir with _ | i
      · dsimp only
        split
        · rename_i hnil
          rw [hnil] at howner ⊢
          rw [parents, List.nil_append, List.findSome?_cons, howner]
          rfl
        · rename_i hne
          rw [ih _ (dirOf_length_lt hne) (dirOf dir) rfl, parents_eq dir]
          split
          · rfl
          · rename_i hslash
            -- without a separator the next directory is the root, and the climb ends there
            rw [dirOf_of_noSlash hslash, parents, List.nil_append, List.findSome?_cons, List.findSome?_cons]
            rcases owner [] with _ | j <;> rfl
      · rfl

theorem above_iff {rel dir : Str} : Above rel dir ↔ dir ∈ parents rel ++ [[]] := by
  rw [Above, List.mem_append, mem_parents_iff, List.mem_singleton, or_comm]

/-- The climb asks the directories above a file from the nearest to the root. -/
theorem unitOfFile_eq (m : ProjectTables) (rel : Str) :
    m.unitOfFile rel = (parents rel ++ [[]]).findSome? m.dirToUnit.get? := by
  rw [ProjectTables.unitOfFile, climb_eq, parents_eq rel]
  split
  · rfl
  · rename_i hslash
    rw [dirOf_of_noSlash hslash, parents, List.nil_append, List.findSome?_cons, List.findSome?_cons]
    rcases m.dirToUnit.get? [] with _ | j <;> rfl

/-- Of two directories above a file the one that comes later is not the longer one. -/
theorem above_sorted {rel d : Str} {before after : List Str} (h : parents rel ++ [[]] = before ++ d :: after) :
    ∀ d' ∈ after, d'.length ≤ d.length := by
  have hsorted : (parents rel ++ [[]]).Pairwise fun d e : Str => e.length ≤ d.length := by
    refine List.pairwise_append.mpr ⟨(parents_sorted rel).imp Nat.le_of_lt, List.pairwise_singleton _ _, ?_⟩
    intro a _ b hb
    rw [List.mem_singleton.mp hb]
    exact Nat.zero_le _
  rw [h] at hsorted
  exact fun d' hd' => List.rel_of_pairwise_cons (List.pairwise_append.mp hsorted).2.1 hd'

/-- Two directories above a file of one length are one. -/
theorem above_inj {rel d d' : Str} (h : Above rel d) (h' : Above rel d') (hlen : d.length = d'.length) : d = d' := by
  have hpre {d : Str} (h : Above rel d) : d <+: rel := by
    rcases h with rfl | h
    · exact List.nil_prefix
    · exact (List.prefix_append d ['/']).trans h
  exact (List.prefix_of_prefix_length_le (hpre h) (hpre h') (Nat.le_of_eq hlen)).eq_of_length hlen

theorem findSome_iff_nearest {units : List ProjectUnit} {rel : Str} {i : Nat} :
    (parents rel ++ [[]]).findSome? (dirToUnit units).get? = some i ↔ Nearest units rel i := by
  rw [List.findSome?_eq_some_iff]
  constructor
  · rintro ⟨before, d, after, heq, hget, hbefore⟩
    refine ⟨d, above_iff.mpr ?_, dirToUnit_iff.mp hget, fun d' habove hlonger j hsole => ?_⟩
    · rw [heq]
      exact List.mem_append_right before List.mem_cons_self
    · have hmem := above_iff.mp habove
      rw [heq] at hmem
      rcases List.mem_append.mp hmem with hmem | hmem
      · have hnone := hbefore d' hmem
        rw [dirToUnit_iff.mpr hsole] at hnone
        cases hnone
      · rcases List.mem_cons.mp hmem with rfl | hmem
        · omega
        · have := above_sorted heq d' hmem
          omega
  · rintro ⟨d, habove, hsole, hnearest⟩
    obtain ⟨before, after, heq, hnot⟩ := List.eq_append_cons_of_mem (above_iff.mp habove)
    refine ⟨before, d, after, heq, dirToUnit_iff.mpr hsole, fun d' hd' => ?_⟩
    have habove' : Above rel d' := above_iff.mpr (by rw [heq]; exact List.mem_append_left _ hd')
    have hle : d.length ≤ d'.length := by
      obtain ⟨x, y, rfl⟩ := List.append_of_mem hd'
      rw [List.append_assoc, List.cons_append] at heq
      exact above_sorted heq d (List.mem_append_right y List.mem_cons_self)
    have hlt : d.length < d'.length := by
      refine Nat.lt_of_le_of_ne hle fun hlen => hnot ?_
      rwa [above_inj habove habove' hlen]
    rcases hget : (dirToUnit units).get? d' with _ | j
    · rfl
    · exact absurd (dirToUnit_iff.mp hget) (hnearest d' habove' hlt j)

/-! ## Reachability -/

/-- A project reaches itself and what its references lead to. -/
theorem reachable_iff {m : ProjectTables} (hclosure : m.closure = buildClosure m.units)
    (hids : (m.units.map ProjectUnit.id).Nodup) (i j : Nat) :
    m.reachable i j = true ↔ Relation.ReflTransGen (Refers m.units) i j := by
  have hrel : (fun x y => y ∈ resolvedRefs m.units x) = Refers m.units := by
    funext x y
    exact propext (mem_resolvedRefs hids)
  have hnodes (c d : Nat) (hd : d ∈ resolvedRefs m.units c) : d ∈ List.range m.units.length := by
    obtain ⟨-, v, -, hv, -⟩ := (mem_resolvedRefs hids).mp hd
    exact List.mem_range.mpr (List.getElem?_eq_some_iff.mp hv).1
  rw [ProjectTables.reachable, Bool.or_eq_true, beq_iff_eq, hclosure, buildClosure]
  by_cases hi : i < m.units.length
  · rw [List.getElem?_map, List.getElem?_range hi, Option.map_some, Option.any_some, List.contains_iff_mem,
      BreadthFirst.mem_found_iff hnodes i j (by rw [List.length_range]; omega), hrel]
    constructor
    · rintro (rfl | ⟨hreach, -⟩)
      · exact .refl
      · exact hreach
    · intro hreach
      by_cases heq : i = j
      · exact .inl heq
      · exact .inr ⟨hreach, Ne.symm heq⟩
  · -- a position that no project stands at has no references
    have hnone : ((List.range m.units.length).map fun i =>
        (BreadthFirst.search (resolvedRefs m.units) (m.units.length + 1) (BreadthFirst.start i)).found)[i]? = none := by
      rw [List.getElem?_eq_none_iff, List.length_map, List.length_range]
      omega
    rw [hnone]
    constructor
    · rintro (rfl | h)
      · exact .refl
      · cases h
    · intro hreach
      rcases Relation.ReflTransGen.cases_head hreach with heq | ⟨k, ⟨u, -, hu, -⟩, -⟩
      · exact .inl heq
      · exact absurd (List.getElem?_eq_some_iff.mp hu).1 hi

/-! ## Persistence -/

section Persistence

variable {units : List ProjectUnit}

theorem sorted_fromUnits (units : List ProjectUnit) :
    (ProjectModel.fromUnits units).units.Pairwise fun a b => a.id ≤ b.id := by
  have htotal : Std.Total fun a b : ProjectUnit => a.id ≤ b.id := ⟨fun a b => le_total a.id b.id⟩
  have htrans : IsTrans ProjectUnit fun a b => a.id ≤ b.id := ⟨fun _ _ _ => le_trans⟩
  exact @List.pairwise_insertionSort ProjectUnit (fun a b => a.id ≤ b.id) _ htotal htrans units

/-- What is persisted of units in the directories of their files is all of them. -/
theorem unitsFromGraph_graphUnits {model : ProjectModel} (hown : ∀ u ∈ model.units, u.dir = dirOf u.id) :
    unitsFromGraph (graphUnits model) = model.units := by
  rw [unitsFromGraph, graphUnits, List.map_map]
  conv_rhs => rw [← List.map_id model.units]
  refine List.map_congr_left fun u hu => ?_
  show ProjectUnit.mk u.id u.name (dirOf u.id) u.refs u.test = u
  rw [← hown u hu]

theorem mem_fromUnits {u : ProjectUnit} : u ∈ (ProjectModel.fromUnits units).units ↔ u ∈ units :=
  List.mem_insertionSort _

/-- The model of a later process is the model of the process that wrote it. -/
theorem fromUnits_roundTrip (hown : ∀ u ∈ units, u.dir = dirOf u.id) :
    ProjectTables.fromUnits (unitsFromGraph (graphUnits ⟨(ProjectTables.fromUnits units).units⟩)) =
      ProjectTables.fromUnits units := by
  have hunits : unitsFromGraph (graphUnits (ProjectModel.fromUnits units)) = (ProjectModel.fromUnits units).units :=
    unitsFromGraph_graphUnits fun u hu => hown u (mem_fromUnits.mp hu)
  have hsort : (ProjectModel.fromUnits (ProjectModel.fromUnits units).units).units =
      (ProjectModel.fromUnits units).units :=
    @List.Pairwise.insertionSort_eq ProjectUnit (fun a b => a.id ≤ b.id) _ _ (sorted_fromUnits units)
  show ProjectTables.fromUnits (unitsFromGraph (graphUnits (ProjectModel.fromUnits units))) = _
  rw [hunits, ProjectTables.fromUnits, hsort]
  rfl

/-- **The project model survives persistence**, and its two answers are what they should be:
reachability is the closure of the references that resolve, and the owner of a file is the only
project of the nearest directory that has only one. -/
theorem project_persists (hown : ∀ u ∈ units, u.dir = dirOf u.id) (hids : (units.map ProjectUnit.id).Nodup) :
    let m := ProjectTables.fromUnits units
    let m' := ProjectTables.fromUnits (unitsFromGraph (graphUnits ⟨m.units⟩))
    (∀ rel, m'.unitOfFile rel = m.unitOfFile rel) ∧ (∀ i j, m'.reachable i j = m.reachable i j) ∧
      (∀ i j, m.reachable i j = true ↔ Relation.ReflTransGen (Refers m.units) i j) ∧
      ∀ rel i, m.unitOfFile rel = some i ↔ Nearest m.units rel i := by
  intro m m'
  have hsame : m' = m := fromUnits_roundTrip hown
  have hsorted : (m.units.map ProjectUnit.id).Nodup :=
    ((List.perm_insertionSort _ units).map ProjectUnit.id).nodup_iff.mpr hids
  refine ⟨fun rel => by rw [hsame], fun i j => by rw [hsame], reachable_iff rfl hsorted, fun rel i => ?_⟩
  rw [unitOfFile_eq]
  exact findSome_iff_nearest

/-- Two projects that refer to each other and one of which shares its directory, and a reference to
nothing. -/
theorem project_persists_cycle :
    let units : List ProjectUnit :=
      [⟨"src/B/B.csproj".toList, "B".toList, "src/B".toList, ["src/A/A.csproj".toList], false⟩,
        ⟨"src/A/A.csproj".toList, "A".toList, "src/A".toList,
          ["src/B/B.csproj".toList, "../Gone.csproj".toList], false⟩,
        ⟨"src/A/Old.csproj".toList, "Old".toList, "src/A".toList, [], false⟩]
    ∀ rel i, (ProjectTables.fromUnits units).unitOfFile rel = some i ↔
      Nearest (ProjectTables.fromUnits units).units rel i := by
  intro units
  exact (@project_persists units (by decide +kernel) (by decide +kernel)).2.2.2

end Persistence

/-- The units that discovery builds are in the directories of their files. -/
theorem discovered_persists {F : Facts} {E : Engine F} {fs : Dir} (hfs : fs.wf = true) {root : Root}
    {scope : List Str} {ign : Ignored} {digests digests' : ConfigDigests} {model : ProjectModel}
    (h : discoverProjects E fs root scope ign digests = .ok (some model, digests')) :
    ProjectTables.fromUnits (unitsFromGraph (graphUnits ⟨(ProjectTables.fromUnits model.units).units⟩)) =
      ProjectTables.fromUnits model.units :=
  fromUnits_roundTrip fun _ hu => unit_dir hfs h hu

end Devscout
