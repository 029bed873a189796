/-
# Devscout.Query.Imported -- what lies behind an imported edge

A producer outside the repository says which sites of other repositories touch which sites
of this one. Beside the rows of a blast radius stands a section for these: every foreign
file that a record joins to a file the walk has reached, one hop further out. A record joins
two sites by itself, or a publication and a consumer meet in the key of a message.

The section is read off the answer, not off the walk, so it knows only of the files the
answer shows; and a foreign file gets the hop of the first record that names it.
-/

import Devscout.Query.Guesses
import Devscout.Lib.Distinct
import Mathlib

namespace Devscout.Query

open Lib

/-! ## The artifact -/

structure EdgeEnd where
  repo : Option Str
  file : Option Str
  line : Option Nat
  deriving DecidableEq

structure ImportRecord where
  kind : Str
  from_ : EdgeEnd
  to_ : EdgeEnd
  key : Option Str
  deriving DecidableEq

structure ImportedEdges where
  mappedRepo : Str
  edges : List ImportRecord

structure ImportedRow where
  file : Str
  repo : Str
  hop : Nat
  importedKind : Str
  deriving DecidableEq

structure ImportedSection where
  rows : List ImportedRow
  dropped : Nat
  affected : Nat
  deriving DecidableEq

/-! ## The section -/

/-- `local_hops`: every file of the answer and its hop, the seed's own files at hop 0. -/
def localHops (model : ImpactModel) : OrderedMap Str Nat :=
  (model.seedFiles.map (·, 0) ++ model.rows.map fun r : ImpactRow => (r.file, r.hop)).foldl
    (fun (hops : OrderedMap Str Nat) (e : Str × Nat) => hops.upsert e.1 e.2 id) .empty

def isMapped (e : EdgeEnd) (mappedRepo : Str) : Bool := e.repo == some mappedRepo

/-- `seen` and `out`, which both passes fill. -/
structure Collected where
  seen : List (Str × Str) := []
  out : List ImportedRow := []

/-- A row goes out unless its file was seen. -/
def Collected.take (c : Collected) (row : ImportedRow) : Collected :=
  if (row.repo, row.file) ∈ c.seen then c
  else ⟨c.seen ++ [(row.repo, row.file)], c.out ++ [row]⟩

section Passes

variable (mappedRepo : Str) (hops : OrderedMap Str Nat)

/-- One record of `direct_rows`. -/
def directRow (record : ImportRecord) : Option ImportedRow :=
  if isMapped record.from_ mappedRepo || !isMapped record.to_ mappedRepo then none
  else do
    let toFile ← record.to_.file
    let hop ← hops.get? toFile
    let fromRepo ← record.from_.repo
    let fromFile ← record.from_.file
    some ⟨fromFile, fromRepo, hop + 1, record.kind⟩

/-- The outer loop of `composed_rows`: a publication out of a file with a hop, and its key. -/
def publication (record : ImportRecord) : Option (Str × Nat × Str) :=
  if record.kind ≠ "publishes".toList || !isMapped record.from_ mappedRepo then none
  else do
    let pubFile ← record.from_.file
    let hop ← hops.get? pubFile
    let msgKey ← record.key
    some (pubFile, hop, msgKey)

/-- The inner loop: a foreign consumer of the message, other than the publication's own site. -/
def composedRow (pubFile : Str) (pubLine : Option Nat) (hop : Nat) (msgKey : Str)
    (record : ImportRecord) : Option ImportedRow :=
  if record.kind ≠ "consumes".toList ∧ record.kind ≠ "enqueues".toList then none
  else if record.key ≠ some msgKey then none
  else if isMapped record.to_ mappedRepo then none
  else if record.to_.file = some pubFile ∧ record.to_.line = pubLine then none
  else do
    let conRepo ← record.to_.repo
    let conFile ← record.to_.file
    some ⟨conFile, conRepo, hop + 1, record.kind⟩

end Passes

/-- `direct_rows`. -/
def directRows (edges : ImportedEdges) (hops : OrderedMap Str Nat) (c : Collected) : Collected :=
  (edges.edges.filterMap (directRow edges.mappedRepo hops)).foldl Collected.take c

/-- `composed_rows`. -/
def composedRows (edges : ImportedEdges) (hops : OrderedMap Str Nat) (c : Collected) : Collected :=
  (edges.edges.flatMap fun record =>
    match publication edges.mappedRepo hops record with
    | none => []
    | some (pubFile, hop, msgKey) =>
        edges.edges.filterMap
          (composedRow edges.mappedRepo pubFile record.from_.line hop msgKey)).foldl Collected.take c

/-- What the rows are sorted by: hop, then repo, then file. -/
def ImportedRow.rank (r : ImportedRow) : Nat ×ₗ (Str ×ₗ Str) := toLex (r.hop, toLex (r.repo, r.file))

/-- Every row, in the order it was found. -/
def importedRows (model : ImpactModel) (edges : ImportedEdges) : List ImportedRow :=
  (composedRows edges (localHops model) (directRows edges (localHops model) {})).out

/-- `build_imported_section`. -/
def buildImportedSection (model : ImpactModel) (edges : ImportedEdges) (cap : Nat) : ImportedSection :=
  let rows := (importedRows model edges).insertionSort fun a b => a.rank ≤ b.rank
  { rows := rows.take cap
    dropped := rows.length - cap
    affected := rows.length }

/-! ## What a record joins -/

/-- The file of the mapped repository, and the foreign one with the kind of its record. -/
structure Join where
  file : Str
  foreign : Str × Str
  kind : Str

def Join.row (j : Join) (hop : Nat) : ImportedRow := ⟨j.foreign.2, j.foreign.1, hop + 1, j.kind⟩

section Joins

variable (mappedRepo : Str)

/-- A foreign site touches one of the mapped repository. -/
def directJoin (record : ImportRecord) : Option Join :=
  if isMapped record.from_ mappedRepo || !isMapped record.to_ mappedRepo then none
  else do
    let toFile ← record.to_.file
    let fromRepo ← record.from_.repo
    let fromFile ← record.from_.file
    some ⟨toFile, (fromRepo, fromFile), record.kind⟩

/-- The file and the key of a publication out of the mapped repository. -/
def publicationSite (record : ImportRecord) : Option (Str × Str) :=
  if record.kind ≠ "publishes".toList || !isMapped record.from_ mappedRepo then none
  else do
    let pubFile ← record.from_.file
    let msgKey ← record.key
    some (pubFile, msgKey)

/-- A foreign consumer of the message is joined to the publication. -/
def composedJoin (pubFile : Str) (pubLine : Option Nat) (msgKey : Str) (record : ImportRecord) :
    Option Join :=
  if record.kind ≠ "consumes".toList ∧ record.kind ≠ "enqueues".toList then none
  else if record.key ≠ some msgKey then none
  else if isMapped record.to_ mappedRepo then none
  else if record.to_.file = some pubFile ∧ record.to_.line = pubLine then none
  else do
    let conRepo ← record.to_.repo
    let conFile ← record.to_.file
    some ⟨pubFile, (conRepo, conFile), record.kind⟩

end Joins

/-- Everything the records join, in the order of the two passes. -/
def joined (edges : ImportedEdges) : List Join :=
  edges.edges.filterMap (directJoin edges.mappedRepo) ++
    edges.edges.flatMap fun record =>
      match publicationSite edges.mappedRepo record with
      | none => []
      | some (pubFile, msgKey) =>
          edges.edges.filterMap (composedJoin edges.mappedRepo pubFile record.from_.line msgKey)

/-- A join whose file has a hop. -/
def Join.rowAt (hops : OrderedMap Str Nat) (j : Join) : Option ImportedRow :=
  (hops.get? j.file).map j.row

theorem directRow_eq (mappedRepo : Str) (hops : OrderedMap Str Nat) (record : ImportRecord) :
    directRow mappedRepo hops record = (directJoin mappedRepo record).bind (Join.rowAt hops) := by
  unfold directRow directJoin
  by_cases hskip : (isMapped record.from_ mappedRepo || !isMapped record.to_ mappedRepo) = true
  · rw [if_pos hskip, if_pos hskip]
    rfl
  · rw [if_neg hskip, if_neg hskip]
    rcases record.to_.file with _ | toFile
    · rfl
    · rcases record.from_.repo with _ | fromRepo <;> rcases record.from_.file with _ | fromFile <;>
        cases hhop : hops.get? toFile <;> simp [Join.rowAt, Join.row, hhop]

theorem composedRow_eq (mappedRepo pubFile : Str) (pubLine : Option Nat) {hop : Nat} (msgKey : Str)
    {hops : OrderedMap Str Nat} (hhop : hops.get? pubFile = some hop) (record : ImportRecord) :
    composedRow mappedRepo pubFile pubLine hop msgKey record =
      (composedJoin mappedRepo pubFile pubLine msgKey record).bind (Join.rowAt hops) := by
  unfold composedRow composedJoin
  split_ifs
  · rfl
  · rfl
  · rfl
  · rfl
  · rcases record.to_.repo with _ | conRepo
    · rfl
    · rcases record.to_.file with _ | conFile
      · rfl
      · simp [Join.rowAt, Join.row, hhop]

/-- A join made by a publication is one of the publication's file. -/
theorem file_of_composedJoin {mappedRepo pubFile msgKey : Str} {pubLine : Option Nat}
    {record : ImportRecord} {j : Join}
    (h : composedJoin mappedRepo pubFile pubLine msgKey record = some j) : j.file = pubFile := by
  unfold composedJoin at h
  split_ifs at h
  simp only [Option.bind_eq_bind, Option.bind_eq_some_iff, Option.some.injEq] at h
  obtain ⟨_, _, _, _, rfl⟩ := h
  rfl

/-- The two passes offer the joins whose file has a hop, in their order. -/
theorem composed_offers (edges : ImportedEdges) (hops : OrderedMap Str Nat) (record : ImportRecord) :
    (match publication edges.mappedRepo hops record with
      | none => []
      | some (pubFile, hop, msgKey) =>
          edges.edges.filterMap
            (composedRow edges.mappedRepo pubFile record.from_.line hop msgKey)) =
      (match publicationSite edges.mappedRepo record with
        | none => []
        | some (pubFile, msgKey) =>
            edges.edges.filterMap
              (composedJoin edges.mappedRepo pubFile record.from_.line msgKey)).filterMap
        (Join.rowAt hops) := by
  unfold publication publicationSite
  by_cases hskip : (record.kind ≠ "publishes".toList || !isMapped record.from_ edges.mappedRepo) = true
  · rw [if_pos hskip, if_pos hskip]
    rfl
  · rw [if_neg hskip, if_neg hskip]
    rcases record.from_.file with _ | pubFile
    · rfl
    · rcases record.key with _ | msgKey
      · cases hops.get? pubFile <;> simp
      · cases hhop : hops.get? pubFile with
        | none =>
            -- no join of this publication has a hop
            simp only [Option.bind_eq_bind, Option.bind_some, Option.bind_none, hhop]
            refine (List.filterMap_eq_nil_iff.mpr fun j hj => ?_).symm
            obtain ⟨con, -, hcon⟩ := List.mem_filterMap.mp hj
            rw [Join.rowAt, file_of_composedJoin hcon, hhop]
            rfl
        | some hop =>
            simp only [Option.bind_eq_bind, Option.bind_some, hhop, List.filterMap_filterMap]
            exact List.filterMap_congr fun con _ => composedRow_eq _ _ _ _ hhop con

/-! ## The rows -/

theorem foldl_take (rows : List ImportedRow) {c : Collected}
    (hseen : c.seen = c.out.map fun r => (r.repo, r.file)) :
    (rows.foldl Collected.take c).out =
      rows.foldl (fun acc r => if (r.repo, r.file) ∈ acc.map (fun r => (r.repo, r.file)) then acc
        else acc ++ [r]) c.out ∧
    (rows.foldl Collected.take c).seen =
      (rows.foldl Collected.take c).out.map fun r => (r.repo, r.file) := by
  induction rows generalizing c with
  | nil => exact ⟨rfl, hseen⟩
  | cons r rows ih =>
      rw [List.foldl_cons, List.foldl_cons]
      by_cases hr : (r.repo, r.file) ∈ c.out.map fun r => (r.repo, r.file)
      · rw [if_pos hr, show c.take r = c from if_pos (hseen ▸ hr)]
        exact ih hseen
      · rw [if_neg hr, show c.take r = ⟨c.seen ++ [(r.repo, r.file)], c.out ++ [r]⟩ from
          if_neg (hseen ▸ hr)]
        exact ih (by simp [hseen])

/-- The rows are the first ones offered of each foreign file. -/
theorem importedRows_eq (model : ImpactModel) (edges : ImportedEdges) :
    importedRows model edges = ((joined edges).filterMap (Join.rowAt (localHops model))).foldl
      (fun acc r => if (r.repo, r.file) ∈ acc.map (fun r => (r.repo, r.file)) then acc
        else acc ++ [r]) [] := by
  have hoffers : (joined edges).filterMap (Join.rowAt (localHops model)) =
      edges.edges.filterMap (directRow edges.mappedRepo (localHops model)) ++
        edges.edges.flatMap fun record =>
          match publication edges.mappedRepo (localHops model) record with
          | none => []
          | some (pubFile, hop, msgKey) =>
              edges.edges.filterMap
                (composedRow edges.mappedRepo pubFile record.from_.line hop msgKey) := by
    rw [joined, List.filterMap_append, List.filterMap_filterMap, List.filterMap_flatMap]
    refine congrArg₂ _ ?_ ?_
    · exact List.filterMap_congr fun r _ => (directRow_eq _ _ r).symm
    · exact List.flatMap_congr fun r _ => (composed_offers edges _ r).symm
  rw [hoffers, importedRows, composedRows, directRows, ← List.foldl_append]
  exact (foldl_take _ rfl).1

section Rows

variable {model : ImpactModel} {edges : ImportedEdges}

/-- A row comes from the first join of its foreign file whose own file has a hop. -/
theorem mem_importedRows {r : ImportedRow} :
    r ∈ importedRows model edges ↔ ∃ pre j post h, joined edges = pre ++ j :: post ∧
      (localHops model).get? j.file = some h ∧ r = j.row h ∧
      ∀ i ∈ pre, i.foreign = j.foreign → (localHops model).get? i.file = none := by
  rw [importedRows_eq, @mem_foldl_newKey _ _ (fun r : ImportedRow => (r.repo, r.file))]
  simp only [List.not_mem_nil, false_or, List.map_nil, not_false_iff, true_and]
  constructor
  · rintro ⟨before, after, hsplit, hfirst⟩
    obtain ⟨pre, late, hjoined, hpre, hlate⟩ := List.filterMap_eq_append_iff.mp hsplit
    obtain ⟨skipped, j, post, rfl, hskipped, hj, -⟩ := List.filterMap_eq_cons_iff.mp hlate
    obtain ⟨h, hhop, rfl⟩ := Option.map_eq_some_iff.mp hj
    refine ⟨pre ++ skipped, j, post, h, by rw [hjoined, List.append_assoc], hhop, rfl, ?_⟩
    intro i hi hforeign
    rcases List.mem_append.mp hi with hi | hi
    · by_contra hsome
      obtain ⟨h', hh'⟩ := Option.ne_none_iff_exists'.mp hsome
      have hmem : i.row h' ∈ before := by
        rw [← hpre]
        exact List.mem_filterMap.mpr ⟨i, hi, Option.map_eq_some_iff.mpr ⟨h', hh', rfl⟩⟩
      exact hfirst _ hmem hforeign
    · exact Option.map_eq_none_iff.mp (hskipped i hi)
  · rintro ⟨pre, j, post, h, hjoined, hhop, rfl, hfirst⟩
    refine ⟨pre.filterMap (Join.rowAt (localHops model)),
      post.filterMap (Join.rowAt (localHops model)), ?_, ?_⟩
    · rw [hjoined, List.filterMap_append, List.filterMap_cons_some]
      exact Option.map_eq_some_iff.mpr ⟨h, hhop, rfl⟩
    · intro q hq heq
      obtain ⟨i, hi, hrow⟩ := List.mem_filterMap.mp hq
      obtain ⟨h', hh', rfl⟩ := Option.map_eq_some_iff.mp hrow
      rw [hfirst i hi heq] at hh'
      cases hh'

theorem nodup_importedRows : ((importedRows model edges).map fun r => (r.repo, r.file)).Nodup := by
  rw [importedRows_eq]
  exact @nodup_keys_foldl_newKey _ _ (fun r : ImportedRow => (r.repo, r.file)) _ _ _ List.nodup_nil

/-- The foreign files of the rows: those joined to a file with a hop. -/
theorem mem_foreign_importedRows {p : Str × Str} :
    p ∈ (importedRows model edges).map (fun r => (r.repo, r.file)) ↔
      ∃ j ∈ joined edges, j.foreign = p ∧ (localHops model).get? j.file ≠ none := by
  rw [List.mem_map]
  constructor
  · rintro ⟨r, hr, rfl⟩
    obtain ⟨pre, j, post, h, hjoined, hhop, rfl, -⟩ := mem_importedRows.mp hr
    exact ⟨j, by rw [hjoined]; exact List.mem_append_right _ List.mem_cons_self, rfl, by simp [hhop]⟩
  · rintro ⟨j, hj, rfl, hsome⟩
    obtain ⟨h, hhop⟩ := Option.ne_none_iff_exists'.mp hsome
    -- the first join of the foreign file that has a hop makes the row
    have hfound : ((joined edges).find? fun i =>
        decide (i.foreign = j.foreign ∧ (localHops model).get? i.file ≠ none)).isSome :=
      List.find?_isSome.mpr ⟨j, hj, decide_eq_true ⟨rfl, hsome⟩⟩
    obtain ⟨i, hi⟩ := Option.isSome_iff_exists.mp hfound
    obtain ⟨hdecide, pre, post, hsplit, hbefore⟩ := List.find?_eq_some_iff_append.mp hi
    obtain ⟨hforeign, hne⟩ := of_decide_eq_true hdecide
    obtain ⟨h', hh'⟩ := Option.ne_none_iff_exists'.mp hne
    refine ⟨i.row h', mem_importedRows.mpr ⟨pre, i, post, h', hsplit, hh', rfl, ?_⟩, hforeign⟩
    intro k hk hsame
    have hk' := hbefore k hk
    rw [Bool.not_eq_true', decide_eq_false_iff_not] at hk'
    by_contra hsomeK
    exact hk' ⟨hsame.trans hforeign, hsomeK⟩

end Rows

/-! ## The files of the walk and those of the answer -/

/-- The file is one of the walk, at this hop. -/
def WalkHop (walk : ImpactWalkResult) (f : Str) (h : Nat) : Prop :=
  (f ∈ walk.seedFiles ∧ h = 0) ∨
    (f ∉ walk.seedFiles ∧ ∃ v, walk.visited.get? f = some v ∧ v.hop = h)

/-- The answer shows the file. -/
def Shown (model : ImpactModel) (f : Str) : Prop :=
  f ∈ model.seedFiles ∨ ∃ r ∈ model.rows, r.file = f

theorem WalkHop.unique {walk : ImpactWalkResult} {f : Str} {h h' : Nat} (hh : WalkHop walk f h)
    (hh' : WalkHop walk f h') : h = h' := by
  rcases hh with ⟨hf, rfl⟩ | ⟨hf, v, hv, rfl⟩ <;> rcases hh' with ⟨hf', rfl⟩ | ⟨hf', v', hv', rfl⟩
  · rfl
  · exact absurd hf hf'
  · exact absurd hf' hf
  · rw [hv] at hv'
    rw [Option.some.inj hv']

section Model

variable {index : GraphIndex} {seedIds : List Str} {hops cap : Nat} {settings : Settings}
  {before : ImpactRow → ImpactRow → Bool} {f : Str}

/-- A row shown is the row of a file visited. -/
theorem visited_of_row {r : ImpactRow}
    (hr : r ∈ (impactModelForSeed index seedIds hops cap settings before).rows) :
    ∃ v, (impactWalk index seedIds hops settings).visited.get? r.file = some v ∧ v.hop = r.hop := by
  have hsorted := List.mem_of_mem_take (show r ∈ List.take cap _ from hr)
  obtain ⟨e, he, rfl⟩ := List.mem_map.mp ((List.perm_insertionSort _ _).mem_iff.mp hsorted)
  exact ⟨e.2, OrderedMap.get?_eq_some_of_mem he, rfl⟩

theorem exists_walkHop_of_shown
    (h : Shown (impactModelForSeed index seedIds hops cap settings before) f) :
    ∃ n, WalkHop (impactWalk index seedIds hops settings) f n := by
  by_cases hseed : f ∈ (impactWalk index seedIds hops settings).seedFiles
  · exact ⟨0, Or.inl ⟨hseed, rfl⟩⟩
  · rcases h with h | ⟨r, hr, rfl⟩
    · exact absurd h hseed
    · obtain ⟨v, hv, hhop⟩ := visited_of_row hr
      exact ⟨r.hop, Or.inr ⟨hseed, v, hv, hhop⟩⟩

/-- The local hops are those of the walk, of the files the answer shows. -/
theorem localHops_eq_some_iff {h : Nat} :
    (localHops (impactModelForSeed index seedIds hops cap settings before)).get? f = some h ↔
      Shown (impactModelForSeed index seedIds hops cap settings before) f ∧
        WalkHop (impactWalk index seedIds hops settings) f h := by
  set model := impactModelForSeed index seedIds hops cap settings before with hmodel
  have hseeds : model.seedFiles = (impactWalk index seedIds hops settings).seedFiles := rfl
  rw [localHops, OrderedMap.get?_foldl_upsert_id, OrderedMap.get?_empty, Option.none_or,
    OrderedMap.lookup_const_append]
  by_cases hf : f ∈ model.seedFiles
  · rw [if_pos hf, Option.some.injEq]
    constructor
    · rintro rfl
      exact ⟨Or.inl hf, Or.inl ⟨hf, rfl⟩⟩
    · rintro ⟨-, hwalk⟩
      exact (WalkHop.unique hwalk (Or.inl ⟨hf, rfl⟩)).symm
  · rw [if_neg hf]
    constructor
    · intro hlookup
      obtain ⟨r, hr, heq⟩ := List.mem_map.mp (OrderedMap.mem_of_lookup hlookup)
      obtain ⟨rfl, rfl⟩ := Prod.mk.inj heq
      obtain ⟨v, hv, hhop⟩ := visited_of_row hr
      exact ⟨Or.inr ⟨r, hr, rfl⟩, Or.inr ⟨hf, v, hv, hhop⟩⟩
    · rintro ⟨hshown, hwalk⟩
      obtain ⟨r, hr, rfl⟩ := hshown.resolve_left hf
      -- whatever row of the file stands first, its hop is that of the walk
      obtain ⟨h', hh'⟩ := Option.ne_none_iff_exists'.mp (OrderedMap.lookup_ne_none
        (List.mem_map_of_mem (f := fun r : ImpactRow => (r.file, r.hop)) hr))
      obtain ⟨q, hq, heq⟩ := List.mem_map.mp (OrderedMap.mem_of_lookup hh')
      obtain ⟨hfile, rfl⟩ : q.file = r.file ∧ q.hop = h' := Prod.mk.inj heq
      obtain ⟨v, hv, hhop⟩ := visited_of_row hq
      rw [hh', WalkHop.unique hwalk (Or.inr ⟨hf, v, hfile ▸ hv, hhop⟩)]

end Model

/-! ## Joins, as the records say -/

/-- The consumer is not the very site that publishes. -/
def OtherSite (pub con : ImportRecord) : Prop :=
  ¬ (con.to_.file = pub.from_.file ∧ con.to_.line = pub.from_.line)

/-- The records join the foreign file, a repository and a path, to the file `f`; `admits` says
which consumers count for a publication. -/
inductive Joins (admits : ImportRecord → ImportRecord → Prop) (edges : ImportedEdges) (f : Str)
    (p : Str × Str) : Prop
  | direct {record : ImportRecord} (mem : record ∈ edges.edges)
      (foreign : record.from_.repo = some p.1 ∧ record.from_.file = some p.2 ∧
        p.1 ≠ edges.mappedRepo)
      (mapped : record.to_.repo = some edges.mappedRepo ∧ record.to_.file = some f) :
      Joins admits edges f p
  | composed {pub con : ImportRecord} {msgKey : Str} (mem : pub ∈ edges.edges)
      (publishes : pub.kind = "publishes".toList)
      (mapped : pub.from_.repo = some edges.mappedRepo ∧ pub.from_.file = some f)
      (sent : pub.key = some msgKey) (memCon : con ∈ edges.edges)
      (consumes : con.kind = "consumes".toList ∨ con.kind = "enqueues".toList)
      (received : con.key = some msgKey)
      (foreign : con.to_.repo = some p.1 ∧ con.to_.file = some p.2 ∧ p.1 ≠ edges.mappedRepo)
      (admitted : admits pub con) : Joins admits edges f p

theorem directJoin_eq_some_iff {mappedRepo : Str} {record : ImportRecord} {j : Join} :
    directJoin mappedRepo record = some j ↔
      record.from_.repo = some j.foreign.1 ∧ record.from_.file = some j.foreign.2 ∧
        j.foreign.1 ≠ mappedRepo ∧ record.to_.repo = some mappedRepo ∧
        record.to_.file = some j.file ∧ record.kind = j.kind := by
  unfold directJoin isMapped
  obtain ⟨file, ⟨repo, foreign⟩, kind⟩ := j
  split_ifs with hskip
  · refine iff_of_false (by simp) ?_
    rintro ⟨hrepo, -, hne, hto, -⟩
    rw [hrepo, hto] at hskip
    simp [hne] at hskip
  · simp only [Option.bind_eq_bind, Option.bind_eq_some_iff, Option.some.injEq, Join.mk.injEq,
      Prod.mk.injEq]
    simp only [Bool.or_eq_true, beq_iff_eq, Bool.not_eq_true', beq_eq_false_iff_ne, not_or,
      ne_eq, not_not] at hskip
    constructor
    · rintro ⟨toFile, hto, fromRepo, hrepo, fromFile, hfile, rfl, ⟨rfl, rfl⟩, rfl⟩
      exact ⟨hrepo, hfile, fun heq => hskip.1 (heq ▸ hrepo), hskip.2, hto, rfl⟩
    · rintro ⟨hrepo, hfile, -, -, hto, rfl⟩
      exact ⟨file, hto, repo, hrepo, foreign, hfile, rfl, ⟨rfl, rfl⟩, rfl⟩

theorem publicationSite_eq_some_iff {mappedRepo f msgKey : Str} {record : ImportRecord} :
    publicationSite mappedRepo record = some (f, msgKey) ↔
      record.kind = "publishes".toList ∧ record.from_.repo = some mappedRepo ∧
        record.from_.file = some f ∧ record.key = some msgKey := by
  unfold publicationSite isMapped
  split_ifs with hskip
  · refine iff_of_false (by simp) ?_
    rintro ⟨hkind, hrepo, -⟩
    rw [hkind, hrepo] at hskip
    simp at hskip
  · simp only [Option.bind_eq_bind, Option.bind_eq_some_iff, Option.some.injEq, Prod.mk.injEq]
    simp only [Bool.or_eq_true, decide_eq_true_eq, Bool.not_eq_true', beq_eq_false_iff_ne, not_or,
      ne_eq, not_not] at hskip
    constructor
    · rintro ⟨file, hfile, key, hkey, rfl, rfl⟩
      exact ⟨hskip.1, hskip.2, hfile, hkey⟩
    · rintro ⟨-, -, hfile, hkey⟩
      exact ⟨f, hfile, msgKey, hkey, rfl, rfl⟩

theorem composedJoin_eq_some_iff {mappedRepo pubFile msgKey : Str} {pubLine : Option Nat}
    {record : ImportRecord} {j : Join} :
    composedJoin mappedRepo pubFile pubLine msgKey record = some j ↔
      (record.kind = "consumes".toList ∨ record.kind = "enqueues".toList) ∧
        record.key = some msgKey ∧ record.to_.repo = some j.foreign.1 ∧
        record.to_.file = some j.foreign.2 ∧ j.foreign.1 ≠ mappedRepo ∧
        ¬ (record.to_.file = some pubFile ∧ record.to_.line = pubLine) ∧ j.file = pubFile ∧
        record.kind = j.kind := by
  unfold composedJoin isMapped
  obtain ⟨file, ⟨repo, foreign⟩, kind⟩ := j
  split_ifs with hkind hkey hmapped hsite
  · exact iff_of_false (by simp) fun h => (not_or.mpr hkind) h.1
  · exact iff_of_false (by simp) fun h => hkey h.2.1
  · refine iff_of_false (by simp) fun h => h.2.2.2.2.1 ?_
    rw [h.2.2.1] at hmapped
    simpa using hmapped
  · exact iff_of_false (by simp) fun h => h.2.2.2.2.2.1 hsite
  · simp only [Option.bind_eq_bind, Option.bind_eq_some_iff, Option.some.injEq, Join.mk.injEq,
      Prod.mk.injEq]
    constructor
    · rintro ⟨conRepo, hrepo, conFile, hfile, rfl, ⟨rfl, rfl⟩, rfl⟩
      refine ⟨by tauto, not_not.mp hkey, hrepo, hfile, ?_, hsite, rfl, rfl⟩
      rintro rfl
      exact hmapped (by rw [hrepo]; exact beq_self_eq_true _)
    · rintro ⟨-, -, hrepo, hfile, -, -, rfl, rfl⟩
      exact ⟨repo, hrepo, foreign, hfile, rfl, ⟨rfl, rfl⟩, rfl⟩

/-- What the two passes join is what the records say. -/
theorem exists_mem_joined_iff {edges : ImportedEdges} {f : Str} {p : Str × Str} :
    (∃ j ∈ joined edges, j.file = f ∧ j.foreign = p) ↔ Joins OtherSite edges f p := by
  constructor
  · rintro ⟨j, hj, rfl, rfl⟩
    rcases List.mem_append.mp hj with hj | hj
    · obtain ⟨record, hmem, hjoin⟩ := List.mem_filterMap.mp hj
      obtain ⟨hrepo, hfile, hne, hto, htoFile, -⟩ := directJoin_eq_some_iff.mp hjoin
      exact .direct hmem ⟨hrepo, hfile, hne⟩ ⟨hto, htoFile⟩
    · obtain ⟨pub, hpub, hcon⟩ := List.mem_flatMap.mp hj
      cases hsite : publicationSite edges.mappedRepo pub with
      | none => simp [hsite] at hcon
      | some site =>
          obtain ⟨pubFile, msgKey⟩ := site
          simp only [hsite] at hcon
          obtain ⟨con, hmem, hjoin⟩ := List.mem_filterMap.mp hcon
          obtain ⟨hkind, hmapped, hpubFile, hkey⟩ := publicationSite_eq_some_iff.mp hsite
          obtain ⟨hconsumes, hreceived, hrepo, hfile, hne, hother, rfl, -⟩ :=
            composedJoin_eq_some_iff.mp hjoin
          exact .composed hpub hkind ⟨hmapped, hpubFile⟩ hkey hmem hconsumes hreceived
            ⟨hrepo, hfile, hne⟩ (by rw [OtherSite, hpubFile]; exact hother)
  · intro h
    cases h with
    | @direct record hmem hforeign hmapped =>
        refine ⟨⟨f, p, record.kind⟩, List.mem_append_left _ (List.mem_filterMap.mpr
          ⟨record, hmem, directJoin_eq_some_iff.mpr ?_⟩), rfl, rfl⟩
        exact ⟨hforeign.1, hforeign.2.1, hforeign.2.2, hmapped.1, hmapped.2, rfl⟩
    | @composed pub con msgKey hmem hkind hmapped hkey hcon hconsumes hreceived hforeign hother =>
        refine ⟨⟨f, p, con.kind⟩, List.mem_append_right _ (List.mem_flatMap.mpr
          ⟨pub, hmem, ?_⟩), rfl, rfl⟩
        rw [publicationSite_eq_some_iff.mpr ⟨hkind, hmapped.1, hmapped.2, hkey⟩]
        refine List.mem_filterMap.mpr ⟨con, hcon, composedJoin_eq_some_iff.mpr ?_⟩
        rw [OtherSite, hmapped.2] at hother
        exact ⟨hconsumes, hreceived, hforeign.1, hforeign.2.1, hforeign.2.2, hother, rfl, rfl⟩

/-! ## What the section says -/

/-- There are exactly `n` of them. -/
def Counts {α : Type} (n : Nat) (P : α → Prop) : Prop :=
  ∃ l : List α, l.Nodup ∧ (∀ a, a ∈ l ↔ P a) ∧ l.length = n

section Reach

variable (admits : ImportRecord → ImportRecord → Prop) (walk : ImpactWalkResult) (edges : ImportedEdges)

/-- The foreign file is joined to a file of the walk, and so lies at this hop. -/
def ReachedAt (p : Str × Str) (k : Nat) : Prop :=
  ∃ f h, WalkHop walk f h ∧ Joins admits edges f p ∧ k = h + 1

/-- The section counts the foreign files that are joined to a file of the walk. -/
def CountExact (model : ImpactModel) : Prop :=
  ∀ n, Counts (buildImportedSection model edges n).affected fun p =>
    ∃ k, ReachedAt admits walk edges p k

/-- Every row has the least hop its file lies at. -/
def HopsLeast (model : ImpactModel) : Prop :=
  ∀ n, ∀ r ∈ (buildImportedSection model edges n).rows,
    IsLeast { k | ReachedAt admits walk edges (r.repo, r.file) k } r.hop

/-- What is joined to a file of the walk is joined to one that the answer shows. -/
def ShownSuffice (model : ImpactModel) : Prop :=
  ∀ f h p, WalkHop walk f h → Joins admits edges f p → ∃ g, Shown model g ∧ Joins admits edges g p

/-- The first join of a foreign file to a file that the answer shows is one of the least hop. -/
def FirstLeast (model : ImpactModel) : Prop :=
  ∀ pre j post h, joined edges = pre ++ j :: post → Shown model j.file → WalkHop walk j.file h →
    (∀ i ∈ pre, i.foreign = j.foreign → ¬ Shown model i.file) →
    ∀ f k, WalkHop walk f k → Joins admits edges f j.foreign → h ≤ k

end Reach

section Section

variable {index : GraphIndex} {seedIds : List Str} {hops cap : Nat} {settings : Settings}
  {before : ImpactRow → ImpactRow → Bool} {edges : ImportedEdges}

theorem mem_rows_iff {model : ImpactModel} {r : ImportedRow} :
    (∃ n, r ∈ (buildImportedSection model edges n).rows) ↔ r ∈ importedRows model edges := by
  have hperm := List.perm_insertionSort (fun a b : ImportedRow => a.rank ≤ b.rank)
    (importedRows model edges)
  constructor
  · rintro ⟨n, hr⟩
    exact hperm.mem_iff.mp (List.mem_of_mem_take hr)
  · intro hr
    refine ⟨(importedRows model edges).length, ?_⟩
    show r ∈ List.take _ (List.insertionSort _ _)
    rw [← hperm.length_eq, List.take_length]
    exact hperm.mem_iff.mpr hr

theorem affected_eq {model : ImpactModel} (n : Nat) :
    (buildImportedSection model edges n).affected = (importedRows model edges).length :=
  (List.perm_insertionSort _ _).length_eq

/-- The foreign files of the rows are those joined to a file that the answer shows. -/
theorem mem_foreign_iff {p : Str × Str} :
    p ∈ (importedRows (impactModelForSeed index seedIds hops cap settings before) edges).map
        (fun r => (r.repo, r.file)) ↔
      ∃ g, Shown (impactModelForSeed index seedIds hops cap settings before) g ∧
        Joins OtherSite edges g p := by
  rw [mem_foreign_importedRows]
  constructor
  · rintro ⟨j, hj, hforeign, hsome⟩
    obtain ⟨h, hhop⟩ := Option.ne_none_iff_exists'.mp hsome
    exact ⟨j.file, (localHops_eq_some_iff.mp hhop).1, exists_mem_joined_iff.mp ⟨j, hj, rfl, hforeign⟩⟩
  · rintro ⟨g, hshown, hjoins⟩
    obtain ⟨j, hj, rfl, hforeign⟩ := exists_mem_joined_iff.mpr hjoins
    obtain ⟨h, hwalk⟩ := exists_walkHop_of_shown hshown
    exact ⟨j, hj, hforeign,
      Option.ne_none_iff_exists'.mpr ⟨h, localHops_eq_some_iff.mpr ⟨hshown, hwalk⟩⟩⟩

/-- A row is one hop further out than a file shown that a record joins its file to. -/
theorem reachedAt_of_mem {r : ImportedRow}
    (hr : r ∈ importedRows (impactModelForSeed index seedIds hops cap settings before) edges) :
    ReachedAt OtherSite (impactWalk index seedIds hops settings) edges (r.repo, r.file) r.hop := by
  obtain ⟨pre, j, post, h, hjoined, hhop, rfl, -⟩ := mem_importedRows.mp hr
  have hmem : j ∈ joined edges := hjoined ▸ List.mem_append_right _ List.mem_cons_self
  exact ⟨j.file, h, (localHops_eq_some_iff.mp hhop).2,
    exists_mem_joined_iff.mp ⟨j, hmem, rfl, rfl⟩, rfl⟩

theorem countExact_iff :
    CountExact OtherSite (impactWalk index seedIds hops settings) edges
        (impactModelForSeed index seedIds hops cap settings before) ↔
      ShownSuffice OtherSite (impactWalk index seedIds hops settings) edges
        (impactModelForSeed index seedIds hops cap settings before) := by
  set model := impactModelForSeed index seedIds hops cap settings before with hmodel
  have hnodup := @nodup_importedRows model edges
  constructor
  · intro hexact f h p hwalk hjoins
    obtain ⟨l, hl, hmem, hlength⟩ := hexact 0
    -- as many rows as foreign files in reach, and no row out of reach: none in reach is missing
    have hsub : (importedRows model edges).map (fun r => (r.repo, r.file)) ⊆ l := by
      intro q hq
      obtain ⟨r, hr, rfl⟩ := List.mem_map.mp hq
      exact (hmem _).mpr ⟨r.hop, reachedAt_of_mem hr⟩
    have hperm := (List.subperm_of_subset hnodup hsub).perm_of_length_le
      (by rw [hlength, affected_eq, List.length_map])
    exact mem_foreign_iff.mp (hperm.mem_iff.mpr ((hmem p).mpr ⟨h + 1, f, h, hwalk, hjoins, rfl⟩))
  · intro hsuffice n
    refine ⟨(importedRows model edges).map fun r => (r.repo, r.file), hnodup, fun p => ?_, ?_⟩
    · rw [mem_foreign_iff]
      constructor
      · rintro ⟨g, hshown, hjoins⟩
        obtain ⟨h, hwalk⟩ := exists_walkHop_of_shown hshown
        exact ⟨h + 1, g, h, hwalk, hjoins, rfl⟩
      · rintro ⟨-, f, h, hwalk, hjoins, -⟩
        exact hsuffice f h p hwalk hjoins
    · rw [affected_eq, List.length_map]

theorem hopsLeast_iff :
    HopsLeast OtherSite (impactWalk index seedIds hops settings) edges
        (impactModelForSeed index seedIds hops cap settings before) ↔
      FirstLeast OtherSite (impactWalk index seedIds hops settings) edges
        (impactModelForSeed index seedIds hops cap settings before) := by
  constructor
  · intro hleast pre j post h hjoined hshown hwalk hfirst f k hk hjoins
    have hrow : j.row h ∈ importedRows
        (impactModelForSeed index seedIds hops cap settings before) edges := by
      refine mem_importedRows.mpr ⟨pre, j, post, h, hjoined,
        localHops_eq_some_iff.mpr ⟨hshown, hwalk⟩, rfl, fun i hi hforeign => ?_⟩
      by_contra hsome
      obtain ⟨h', hh'⟩ := Option.ne_none_iff_exists'.mp hsome
      exact hfirst i hi hforeign (localHops_eq_some_iff.mp hh').1
    obtain ⟨n, hn⟩ := mem_rows_iff.mpr hrow
    have hle : h + 1 ≤ k + 1 := (hleast n _ hn).2 ⟨f, k, hk, hjoins, rfl⟩
    omega
  · intro hfirst n r hr
    have hmem := mem_rows_iff.mp ⟨n, hr⟩
    refine ⟨reachedAt_of_mem hmem, ?_⟩
    rintro _ ⟨f, k, hk, hjoins, rfl⟩
    obtain ⟨pre, j, post, h, hjoined, hhop, rfl, hnone⟩ := mem_importedRows.mp hmem
    obtain ⟨hshown, hwalk⟩ := localHops_eq_some_iff.mp hhop
    refine Nat.succ_le_succ (hfirst pre j post h hjoined hshown hwalk ?_ f k hk hjoins)
    intro i hi hforeign hshownI
    obtain ⟨h', hh'⟩ := exists_walkHop_of_shown hshownI
    have hsome := localHops_eq_some_iff.mpr ⟨hshownI, hh'⟩
    rw [hnone i hi hforeign] at hsome
    cases hsome

/-- The ranks of the rows: every foreign file in reach, at the least hop it lies at. -/
theorem mem_ranks_iff
    (hcount : CountExact OtherSite (impactWalk index seedIds hops settings) edges
      (impactModelForSeed index seedIds hops cap settings before))
    (hleast : HopsLeast OtherSite (impactWalk index seedIds hops settings) edges
      (impactModelForSeed index seedIds hops cap settings before)) {x : Nat ×ₗ (Str ×ₗ Str)} :
    x ∈ (importedRows (impactModelForSeed index seedIds hops cap settings before) edges).map
        ImportedRow.rank ↔
      IsLeast { k | ReachedAt OtherSite (impactWalk index seedIds hops settings) edges
        (ofLex (ofLex x).2) k } (ofLex x).1 := by
  have hrows : ∀ r ∈ importedRows (impactModelForSeed index seedIds hops cap settings before) edges,
      IsLeast { k | ReachedAt OtherSite (impactWalk index seedIds hops settings) edges
        (r.repo, r.file) k } r.hop := by
    intro r hr
    obtain ⟨n, hn⟩ := mem_rows_iff.mpr hr
    exact hleast n r hn
  rw [List.mem_map]
  constructor
  · rintro ⟨r, hr, rfl⟩
    exact hrows r hr
  · intro hx
    obtain ⟨f, h, hwalk, hjoins, -⟩ := hx.1
    have hpair := mem_foreign_iff.mpr (countExact_iff.mp hcount f h _ hwalk hjoins)
    obtain ⟨r, hr, heq⟩ := List.mem_map.mp hpair
    refine ⟨r, hr, ?_⟩
    have hhop : r.hop = (ofLex x).1 := by
      have hr' := hrows r hr
      rw [heq] at hr'
      exact hr'.unique hx
    show toLex (r.hop, toLex (r.repo, r.file)) = x
    rw [hhop, heq]
    rfl

theorem nodup_ranks {model : ImpactModel} :
    ((importedRows model edges).map ImportedRow.rank).Nodup := by
  have hpairs := @nodup_importedRows model edges
  have hof : ((importedRows model edges).map ImportedRow.rank).map (fun x => ofLex (ofLex x).2) =
      (importedRows model edges).map fun r => (r.repo, r.file) := by
    rw [List.map_map]
    rfl
  exact List.Nodup.of_map _ (hof ▸ hpairs)

/-- Only which records there are and which repository is mapped decides what is joined. -/
theorem Joins.of_perm {admits : ImportRecord → ImportRecord → Prop} {edges' : ImportedEdges}
    (hrepo : edges'.mappedRepo = edges.mappedRepo) (hperm : edges'.edges.Perm edges.edges) {f : Str}
    {p : Str × Str} (h : Joins admits edges f p) : Joins admits edges' f p := by
  cases h with
  | direct hmem hforeign hmapped =>
      exact .direct (hperm.mem_iff.mpr hmem) (hrepo ▸ hforeign) (hrepo ▸ hmapped)
  | composed hmem hkind hmapped hkey hcon hconsumes hreceived hforeign hother =>
      exact .composed (hperm.mem_iff.mpr hmem) hkind (hrepo ▸ hmapped) hkey (hperm.mem_iff.mpr hcon)
        hconsumes hreceived (hrepo ▸ hforeign) hother

theorem reachedAt_perm {admits : ImportRecord → ImportRecord → Prop} {walk : ImpactWalkResult}
    {edges' : ImportedEdges} (hrepo : edges'.mappedRepo = edges.mappedRepo)
    (hperm : edges'.edges.Perm edges.edges) {p : Str × Str} {k : Nat} :
    ReachedAt admits walk edges' p k ↔ ReachedAt admits walk edges p k := by
  constructor <;> rintro ⟨f, h, hwalk, hjoins, rfl⟩
  · exact ⟨f, h, hwalk, hjoins.of_perm hrepo.symm hperm.symm, rfl⟩
  · exact ⟨f, h, hwalk, hjoins.of_perm hrepo hperm, rfl⟩

/-- Two sections that are exact have the same files at the same hops, in the same order. -/
theorem ranks_eq {edges' : ImportedEdges} {cap' : Nat}
    (hrepo : edges'.mappedRepo = edges.mappedRepo) (hperm : edges'.edges.Perm edges.edges)
    (hcount : CountExact OtherSite (impactWalk index seedIds hops settings) edges
      (impactModelForSeed index seedIds hops cap settings before))
    (hleast : HopsLeast OtherSite (impactWalk index seedIds hops settings) edges
      (impactModelForSeed index seedIds hops cap settings before))
    (hcount' : CountExact OtherSite (impactWalk index seedIds hops settings) edges'
      (impactModelForSeed index seedIds hops cap' settings before))
    (hleast' : HopsLeast OtherSite (impactWalk index seedIds hops settings) edges'
      (impactModelForSeed index seedIds hops cap' settings before)) :
    ((importedRows (impactModelForSeed index seedIds hops cap' settings before) edges').map
      ImportedRow.rank).Perm
      ((importedRows (impactModelForSeed index seedIds hops cap settings before) edges).map
        ImportedRow.rank) := by
  refine (List.perm_ext_iff_of_nodup nodup_ranks nodup_ranks).mpr fun x => ?_
  rw [mem_ranks_iff hcount' hleast', mem_ranks_iff hcount hleast]
  simp only [reachedAt_perm hrepo hperm]

/-- Rows with the same ranks are sorted alike. -/
theorem sorted_ranks_eq {rows rows' : List ImportedRow}
    (hperm : (rows'.map ImportedRow.rank).Perm (rows.map ImportedRow.rank)) :
    (rows'.insertionSort fun a b => a.rank ≤ b.rank).map ImportedRow.rank =
      (rows.insertionSort fun a b => a.rank ≤ b.rank).map ImportedRow.rank := by
  have hsorted : ∀ rows : List ImportedRow,
      ((rows.insertionSort fun a b => a.rank ≤ b.rank).map ImportedRow.rank).Pairwise (· ≤ ·) := by
    intro rows
    rw [List.pairwise_map]
    have htotal : Std.Total fun a b : ImportedRow => a.rank ≤ b.rank := ⟨fun a b => le_total _ _⟩
    have htrans : IsTrans ImportedRow fun a b => a.rank ≤ b.rank := ⟨fun _ _ _ => le_trans⟩
    exact List.pairwise_insertionSort _ _
  refine List.Perm.eq_of_pairwise (fun _ _ _ _ => le_antisymm) (hsorted rows') (hsorted rows) ?_
  exact ((List.perm_insertionSort _ rows').map _).trans
    (hperm.trans ((List.perm_insertionSort _ rows).map _).symm)

/-- **What an imported section says.** Every row is one hop further out than a file of the walk
that a record joins its file to. The count is that of all the foreign files joined to the walk
exactly when those joined to it are joined to a file that the answer shows; the hops are the
least ones exactly when the first join of each foreign file to a file shown is. Where this
holds, neither the cap of the answer nor the order of the records is seen in the section. -/
theorem importedSection_reach (index : GraphIndex) (seedIds : List Str) (hops cap : Nat)
    (settings : Settings) (before : ImpactRow → ImpactRow → Bool) (edges : ImportedEdges) :
    (∀ n, ∀ r ∈ (buildImportedSection (impactModelForSeed index seedIds hops cap settings before)
      edges n).rows,
      ReachedAt OtherSite (impactWalk index seedIds hops settings) edges (r.repo, r.file) r.hop) ∧
    (CountExact OtherSite (impactWalk index seedIds hops settings) edges
        (impactModelForSeed index seedIds hops cap settings before) ↔
      ShownSuffice OtherSite (impactWalk index seedIds hops settings) edges
        (impactModelForSeed index seedIds hops cap settings before)) ∧
    (HopsLeast OtherSite (impactWalk index seedIds hops settings) edges
        (impactModelForSeed index seedIds hops cap settings before) ↔
      FirstLeast OtherSite (impactWalk index seedIds hops settings) edges
        (impactModelForSeed index seedIds hops cap settings before)) ∧
    ∀ cap' edges', edges'.mappedRepo = edges.mappedRepo → edges'.edges.Perm edges.edges →
      CountExact OtherSite (impactWalk index seedIds hops settings) edges
        (impactModelForSeed index seedIds hops cap settings before) →
      HopsLeast OtherSite (impactWalk index seedIds hops settings) edges
        (impactModelForSeed index seedIds hops cap settings before) →
      CountExact OtherSite (impactWalk index seedIds hops settings) edges'
        (impactModelForSeed index seedIds hops cap' settings before) →
      HopsLeast OtherSite (impactWalk index seedIds hops settings) edges'
        (impactModelForSeed index seedIds hops cap' settings before) →
      ∀ n,
        (buildImportedSection (impactModelForSeed index seedIds hops cap' settings before) edges'
          n).affected =
          (buildImportedSection (impactModelForSeed index seedIds hops cap settings before) edges
            n).affected ∧
        (buildImportedSection (impactModelForSeed index seedIds hops cap' settings before) edges'
          n).rows.map (fun r => (r.hop, r.repo, r.file)) =
          (buildImportedSection (impactModelForSeed index seedIds hops cap settings before) edges
            n).rows.map fun r => (r.hop, r.repo, r.file) := by
  refine ⟨fun n r hr => reachedAt_of_mem (mem_rows_iff.mp ⟨n, hr⟩), countExact_iff, hopsLeast_iff, ?_⟩
  intro cap' edges' hrepo hperm hcount hleast hcount' hleast' n
  have hranks := ranks_eq hrepo hperm hcount hleast hcount' hleast'
  refine ⟨?_, ?_⟩
  · rw [affected_eq, affected_eq]
    simpa using hranks.length_eq
  · have hsorted := congrArg (fun xs => (xs.take n).map fun x : Nat ×ₗ (Str ×ₗ Str) =>
      ((ofLex x).1, (ofLex (ofLex x).2).1, (ofLex (ofLex x).2).2)) (sorted_ranks_eq hranks)
    simp only [List.map_take, List.map_map] at hsorted
    show List.map _ (List.take n _) = List.map _ (List.take n _)
    rw [List.map_take, List.map_take]
    exact hsorted

end Section

/-! ## Three sections that are not exact -/

/-- `app.cs` and `bar.cs` use the class of `core.cs`. -/
def twoUsers : Graph where
  defs := [⟨"Core".toList, "Core".toList, "class".toList, "core.cs".toList, [], []⟩]
  edges := [.usesType "app.cs".toList 4 "Core".toList "core.cs".toList false,
    .usesType "bar.cs".toList 7 "Core".toList "core.cs".toList false]
  unitIsTest := fun _ => false

/-- The walk from `Core`, and the answer that shows `cap` rows of it. -/
def twoUsersWalk : ImpactWalkResult :=
  impactWalk (loadGraphIndexWith twoUsers ⟨true, true, true⟩) ["Core".toList] 2 ⟨true, 8, 34⟩

def twoUsersAnswer (cap : Nat) : ImpactModel :=
  impactModelForSeed (loadGraphIndexWith twoUsers ⟨true, true, true⟩) ["Core".toList] 2 cap
    ⟨true, 8, 34⟩ fun _ _ => true

def shopEnd (file : String) (line : Nat) : EdgeEnd := ⟨some "shop".toList, some file.toList, some line⟩

def ledgerEnd (file : String) (line : Nat) : EdgeEnd :=
  ⟨some "ledger".toList, some file.toList, some line⟩

/-- The ledger consumes the message at the path and line at which the shop publishes it. -/
def echoed : ImportedEdges :=
  ⟨"shop".toList,
    [⟨"publishes".toList, shopEnd "core.cs" 5, ⟨some "message".toList, none, none⟩,
        some "placed".toList⟩,
      ⟨"consumes".toList, ⟨some "message".toList, none, none⟩, ledgerEnd "core.cs" 5,
        some "placed".toList⟩]⟩

/-- The ledger calls the file that an answer of one row does not show. -/
def callsSecond : ImportedEdges :=
  ⟨"shop".toList, [⟨"calls".toList, ledgerEnd "caller.ts" 1, shopEnd "bar.cs" 7, none⟩]⟩

/-- The ledger calls a file of hop 1, and then one of the seed. -/
def callsFarFirst : ImportedEdges :=
  ⟨"shop".toList, [⟨"calls".toList, ledgerEnd "caller.ts" 1, shopEnd "app.cs" 4, none⟩,
    ⟨"calls".toList, ledgerEnd "caller.ts" 2, shopEnd "core.cs" 1, none⟩]⟩

theorem twoUsersWalk_seed : WalkHop twoUsersWalk "core.cs".toList 0 :=
  Or.inl ⟨by decide +kernel, rfl⟩

theorem twoUsersWalk_second : ∃ h, WalkHop twoUsersWalk "bar.cs".toList h := by
  have hvisited : (twoUsersWalk.visited.get? "bar.cs".toList).isSome := by
    delta twoUsersWalk twoUsers
    repeat rw [String.toList_ofList]
    decide +kernel
  obtain ⟨v, hv⟩ := Option.isSome_iff_exists.mp hvisited
  refine ⟨v.hop, Or.inr ⟨?_, v, hv, rfl⟩⟩
  delta twoUsersWalk twoUsers
  repeat rw [String.toList_ofList]
  decide +kernel

/-- A section of no row is no exact count where something is joined. -/
theorem not_countExact_of_joins {admits : ImportRecord → ImportRecord → Prop}
    {walk : ImpactWalkResult} {edges : ImportedEdges} {model : ImpactModel} {f : Str} {h : Nat}
    {p : Str × Str} (hwalk : WalkHop walk f h) (hjoins : Joins admits edges f p)
    (hnone : (buildImportedSection model edges 0).affected = 0) :
    ¬ CountExact admits walk edges model := by
  intro hexact
  obtain ⟨l, -, hmem, hlength⟩ := hexact 0
  rw [hnone, List.length_eq_zero_iff] at hlength
  subst hlength
  exact List.not_mem_nil ((hmem p).mpr ⟨h + 1, f, h, hwalk, hjoins, rfl⟩)

/-- A consumer at the publication's own path and line is left out; a file joined only to a row
cut off is not counted; and a row has the hop of the first record that names its file. -/
theorem twoUsers_not_exact :
    ¬ CountExact (fun _ _ => True) twoUsersWalk echoed (twoUsersAnswer 50) ∧
    ¬ CountExact (fun _ _ => True) twoUsersWalk callsSecond (twoUsersAnswer 1) ∧
    ¬ HopsLeast (fun _ _ => True) twoUsersWalk callsFarFirst (twoUsersAnswer 50) := by
  refine ⟨?_, ?_, ?_⟩
  · refine not_countExact_of_joins (p := ("ledger".toList, "core.cs".toList)) twoUsersWalk_seed
      (.composed List.mem_cons_self rfl ⟨rfl, rfl⟩ rfl
        (List.mem_cons_of_mem _ List.mem_cons_self) (Or.inl rfl) rfl
        ⟨rfl, rfl, by decide⟩ trivial) (by decide +kernel)
  · obtain ⟨h, hwalk⟩ := twoUsersWalk_second
    exact not_countExact_of_joins (p := ("ledger".toList, "caller.ts".toList)) hwalk
      (.direct List.mem_cons_self ⟨rfl, rfl, by decide⟩ ⟨rfl, rfl⟩) (by decide +kernel)
  · intro hleast
    have hrow : (⟨"caller.ts".toList, "ledger".toList, 2, "calls".toList⟩ : ImportedRow) ∈
        (buildImportedSection (twoUsersAnswer 50) callsFarFirst 50).rows := by
      delta twoUsersAnswer twoUsers callsFarFirst ledgerEnd shopEnd
      repeat rw [String.toList_ofList]
      decide +kernel
    have hle : 2 ≤ 1 := (hleast 50 _ hrow).2 ⟨"core.cs".toList, 0, twoUsersWalk_seed,
      .direct (List.mem_cons_of_mem _ List.mem_cons_self) ⟨rfl, rfl, by decide⟩ ⟨rfl, rfl⟩, rfl⟩
    exact absurd hle (by decide)

end Devscout.Query
