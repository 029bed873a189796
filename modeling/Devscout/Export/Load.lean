/-
# Devscout.Export.Load -- the bracketed read of one index generation

An export reads the record, the digest table, the graph, the manifest, the fragments
cache and the admitted compiler facts one after the other, runs the query layer's
validation, and closes the bracket: the record again, then the identities of
everything it read. Each read is an observation of its own, and a refusal anywhere
gives the export up.

The record stands between two reads of itself. The cache and the compiler facts are
identified before or after they are read, as the code has it.
-/

import Devscout.Freshness.Validate

namespace Devscout

open Lib Lib.Text Lib.Files Lib.Atomic

variable {F : Facts} (E : Engine F)

/-! ## Refusals -/

def GRAPH_FILE : Str := "graph.json".toList

def MANIFEST_FILE : Str := "manifest.json".toList

/-- Why `devscout export` declined to write a stream. -/
inductive ExportRefusal where
  | noIndex (detail : Str)
  | noIndexState (detail : Str)
  | legacyIndex (detail : Str)
  | artifactMissing (detail : Str)
  | artifactUnreadable (detail : Str)
  | unknownGeneration (detail : Str)
  | indexChanged (detail : Str)

namespace ExportRefusal

/-- The reason word a consumer branches on. -/
def reason : ExportRefusal → Str
  | noIndex _ => "no-index".toList
  | noIndexState _ => "no-index-state".toList
  | legacyIndex _ => "legacy-index".toList
  | artifactMissing _ => "artifact-missing".toList
  | artifactUnreadable _ => "artifact-unreadable".toList
  | unknownGeneration _ => "unknown-generation".toList
  | indexChanged _ => "index-changed".toList

def detail : ExportRefusal → Str
  | noIndex detail => detail
  | noIndexState detail => detail
  | legacyIndex detail => detail
  | artifactMissing detail => detail
  | artifactUnreadable detail => detail
  | unknownGeneration detail => detail
  | indexChanged detail => detail

/-- The stderr line every refusal prints. -/
def line (r : ExportRefusal) : Str :=
  "devscout export: refused (".toList ++ r.reason ++ "): ".toList ++ r.detail ++
    "; run `devscout map`, then export again".toList

end ExportRefusal

/-! ## The observations -/

/-- What an export observes: the world, and the file of the admitted compiler facts. -/
structure Index (F : Facts) where
  world : World F
  facts : Option (StateFile F.CompilerFacts)

/-- The observations of an export, by what they read. -/
inductive ExportLook where
  | beginRecord
  | record
  | graphPresent
  | digestsBefore
  | digestsText
  | digestsAfter
  | graphText
  | graphIdentity
  | manifestIdentity
  | cacheBefore
  | cacheText
  | cacheAfter
  | cacheIdentity
  | manifestPresent
  | manifestText
  | factsIdentity
  | factsText
  | validation (look : Look)
  | closingRecord
  | closingGraph
  | closingManifest
  | closingCache
  | closingFacts

abbrev ExportProg (F : Facts) (α : Type) := Prog (Index F) ExportLook (WriteOp F) α

def Store.cacheIdentity (s : Store F) : Option ArtifactIdentity := s.cache.map Stamped.ident

/-- The export gives up. -/
def refuse {α : Type} (r : ExportRefusal) : ExportProg F α := .fail r.line

/-! ## The reads -/

/-- `published_record`: a graph with no record is not "no index". -/
def publishedRecord : ExportProg F Record := do
  let state ← Prog.read .record fun x => x.world.store.readRecord
  match state with
  | .published record => pure record
  | .missing => do
      let present ← Prog.read .graphPresent fun x => x.world.store.graph.isSome
      if present then
        refuse (.noIndexState ("a ".toList ++ GRAPH_FILE ++
          " is here with no published index record".toList))
      else refuse (.noIndex "this repository has no index".toList)
  | .uncertifiable =>
      refuse (.legacyIndex "the index record is not a shape this build certifies".toList)
  | .inProgress _ => refuse (.indexChanged "a `map` is running in this repository".toList)

/-- `digest_table`: the strict read, and the table of the record's own run. -/
def digestTable (record : Record) : ExportProg F DigestTable := do
  let before ← Prog.read .digestsBefore fun x => x.world.store.digests.map Stamped.ident
  let text ← Prog.read .digestsText fun x => x.world.store.digests.map Stamped.content
  match text with
  | none => refuse (.legacyIndex "the index has no per-file digest table".toList)
  | some table => do
      let after ← Prog.read .digestsAfter fun x => x.world.store.digests.map Stamped.ident
      if before.isNone || before != after then
        refuse (.indexChanged "the per-file digest table changed while it was read".toList)
      else if table.generation ≠ record.generation then
        refuse (.indexChanged "the per-file digest table belongs to another `map` run".toList)
      else pure table

def notCertified : ExportRefusal :=
  .indexChanged (GRAPH_FILE ++ " or ".toList ++ MANIFEST_FILE ++
    " is not the artifact the index record certifies".toList)

/-- The graph, read before its identity is compared; the manifest's identity with it. -/
def certifiedGraph (record : Record) : ExportProg F (Graph F) := do
  match record.artifacts.graph with
  | none => refuse (.artifactMissing ("the index certifies no ".toList ++ GRAPH_FILE))
  | some expected => do
      let present ← Prog.read .graphPresent fun x => x.world.store.graph.isSome
      if !present then refuse (.artifactMissing GRAPH_FILE)
      else do
        let text ← Prog.read .graphText fun x => x.world.store.graph.map Stamped.content
        match text with
        | none => refuse (.artifactUnreadable (GRAPH_FILE ++ " could not be read".toList))
        | some graph =>
            if graph.schemaVersion ≠ GRAPH_SCHEMA_VERSION then
              refuse (.unknownGeneration (GRAPH_FILE ++ " is schema version ".toList ++
                (toString graph.schemaVersion).toList ++ ", this build writes ".toList ++
                (toString GRAPH_SCHEMA_VERSION).toList))
            else do
              let graphIdentity ← Prog.read .graphIdentity fun x => x.world.store.graphIdentity
              if graphIdentity ≠ some expected then refuse notCertified
              else do
                let manifestIdentity ←
                  Prog.read .manifestIdentity fun x => x.world.store.manifestIdentity
                if manifestIdentity ≠ record.artifacts.manifest then refuse notCertified
                else pure graph

/-- `read_fragments_messaging`, the owner checked against the record's. -/
def readMessaging (record : Record) :
    ExportProg F (OwnerStamped (FragmentCacheEntry F)) := do
  let before ← Prog.read .cacheBefore fun x => x.world.store.cacheIdentity
  let text ← Prog.read .cacheText fun x => x.world.store.cache.map Stamped.content
  match text with
  | none => refuse (.artifactMissing "the fragment cache".toList)
  | some stamped =>
      if stamped.owner ≠ some record.owner then
        refuse (.indexChanged "the fragment cache was written by another worktree".toList)
      else do
        let after ← Prog.read .cacheAfter fun x => x.world.store.cacheIdentity
        if before.isNone || before != after then
          refuse (.indexChanged "the fragment cache changed while it was read".toList)
        else pure stamped

/-- `read_manifest`, as the test classification opens it. -/
def readManifest : ExportProg F (Option Value) := do
  let present ← Prog.read .manifestPresent fun x => x.world.store.manifest.isSome
  if present then Prog.read .manifestText fun x => x.world.store.manifest.map Stamped.content
  else pure none

def artifactChanged : ExportRefusal :=
  .indexChanged "an index artifact changed while the export ran".toList

/-- `confirm_unchanged`. -/
def confirmUnchanged (record : Record) (cacheIdentity factsIdentity : Option ArtifactIdentity)
    (validation : Validation) : ExportProg F Unit := do
  if validation.state = .unknown .indexChanged ∨ validation.state = .unknown .noIndexState then
    refuse (.indexChanged "the index moved while the export ran".toList)
  else do
    let state ← Prog.read .closingRecord fun x => x.world.store.readRecord
    let republished := .indexChanged "the index was republished while the export ran".toList
    match state with
    | .published last =>
        if last.generation ≠ record.generation then refuse republished
        else do
          let graph ← Prog.read .closingGraph fun x => x.world.store.graphIdentity
          if graph ≠ record.artifacts.graph then refuse artifactChanged
          else do
            let manifest ← Prog.read .closingManifest fun x => x.world.store.manifestIdentity
            if manifest ≠ record.artifacts.manifest then refuse artifactChanged
            else do
              let cache ← Prog.read .closingCache fun x => x.world.store.cacheIdentity
              if cache ≠ cacheIdentity then refuse artifactChanged
              else do
                let facts ← Prog.read .closingFacts fun x => x.facts.map Stamped.ident
                if facts ≠ factsIdentity then refuse artifactChanged else pure ()
    | _ => refuse republished

/-- What one export publishes from, as it was read. -/
structure Snapshot (F : Facts) where
  record : Record
  digests : DigestTable
  graph : Graph F
  /-- The manifest the test classification read. -/
  manifest : Option Value
  messaging : OwnerStamped (FragmentCacheEntry F)
  compilerFacts : Option F.CompilerFacts
  validation : Validation

/-- `load_bracketed`. -/
def loadBracketed (wt : Worktree) (asking : Option Str) : ExportProg F (Snapshot F) := do
  let begun ← Prog.read .beginRecord fun x => x.world.store.readRecord
  let record ← publishedRecord
  let digests ← digestTable record
  let graph ← certifiedGraph record
  let messaging ← readMessaging record
  let cacheIdentity ← Prog.read .cacheIdentity fun x => x.world.store.cacheIdentity
  let manifest ← readManifest
  let factsIdentity ← Prog.read .factsIdentity fun x => x.facts.map Stamped.ident
  let compilerFacts ← Prog.read .factsText fun x => x.facts.map Stamped.content
  let finished ← (finish E wt asking begun).through Index.world .validation
  confirmUnchanged record cacheIdentity factsIdentity finished.validation
  pure ⟨record, digests, graph, manifest, messaging, compilerFacts, finished.validation⟩

/-! ## An export writes nothing -/

theorem silent_publishedRecord : (publishedRecord : ExportProg F Record).Silent := by
  refine Prog.Within.bind (Prog.within_read trivial _) fun state => ?_
  split
  · trivial
  · refine Prog.Within.bind (Prog.within_read trivial _) fun present => ?_
    split <;> trivial
  · trivial
  · trivial

theorem silent_digestTable (record : Record) :
    (digestTable record : ExportProg F DigestTable).Silent := by
  iterate 2 refine Prog.Within.bind (Prog.within_read trivial _) fun _ => ?_
  split
  · trivial
  · refine Prog.Within.bind (Prog.within_read trivial _) fun after => ?_
    split
    · trivial
    · split <;> trivial

theorem silent_certifiedGraph (record : Record) :
    (certifiedGraph record : ExportProg F (Graph F)).Silent := by
  unfold certifiedGraph
  split
  · trivial
  · refine Prog.Within.bind (Prog.within_read trivial _) fun present => ?_
    split
    · trivial
    · refine Prog.Within.bind (Prog.within_read trivial _) fun text => ?_
      split
      · trivial
      · split
        · trivial
        · refine Prog.Within.bind (Prog.within_read trivial _) fun graphIdentity => ?_
          split
          · trivial
          · refine Prog.Within.bind (Prog.within_read trivial _) fun manifestIdentity => ?_
            split <;> trivial

theorem silent_readMessaging (record : Record) :
    (readMessaging record : ExportProg F (OwnerStamped (FragmentCacheEntry F))).Silent := by
  iterate 2 refine Prog.Within.bind (Prog.within_read trivial _) fun _ => ?_
  split
  · trivial
  · split
    · trivial
    · refine Prog.Within.bind (Prog.within_read trivial _) fun after => ?_
      split <;> trivial

theorem silent_readManifest : (readManifest : ExportProg F (Option Value)).Silent := by
  refine Prog.Within.bind (Prog.within_read trivial _) fun present => ?_
  split
  · exact Prog.within_read trivial _
  · trivial

theorem silent_confirmUnchanged (record : Record)
    (cacheIdentity factsIdentity : Option ArtifactIdentity) (validation : Validation) :
    (confirmUnchanged record cacheIdentity factsIdentity validation : ExportProg F Unit).Silent := by
  unfold confirmUnchanged
  split
  · trivial
  · refine Prog.Within.bind (Prog.within_read trivial _) fun state => ?_
    dsimp only
    split
    · split
      · trivial
      · iterate 3
          refine Prog.Within.bind (Prog.within_read trivial _) fun _ => ?_
          split
          · trivial
        refine Prog.Within.bind (Prog.within_read trivial _) fun _ => ?_
        split <;> trivial
    · trivial

theorem silent_loadBracketed (wt : Worktree) (asking : Option Str) :
    (loadBracketed E wt asking).Silent := by
  refine Prog.Within.bind (Prog.within_read trivial _) fun begun => ?_
  refine Prog.Within.bind silent_publishedRecord fun record => ?_
  refine Prog.Within.bind (silent_digestTable record) fun digests => ?_
  refine Prog.Within.bind (silent_certifiedGraph record) fun graph => ?_
  refine Prog.Within.bind (silent_readMessaging record) fun messaging => ?_
  refine Prog.Within.bind (Prog.within_read trivial _) fun cacheIdentity => ?_
  refine Prog.Within.bind silent_readManifest fun manifest => ?_
  iterate 2 refine Prog.Within.bind (Prog.within_read trivial _) fun _ => ?_
  refine Prog.Within.bind (Prog.Silent.through _ _ ?_) fun finished => ?_
  · rw [finish]
    split
    · trivial
    · exact silent_finishRecord E wt.root _
  · exact Prog.Within.bind (silent_confirmUnchanged _ _ _ _) fun _ => trivial

/-! ## What a completed export saw -/

section Bracket

variable {E} {S : Type} {view : S → Index F} {R : S → S → Prop} {s s' : S} {record : Record}

/-- A run of an export's program. -/
abbrev Saw (view : S → Index F) (R : S → S → Prop) {α : Type} (p : ExportProg F α) (s : S) (a : α)
    (s' : S) : Prop :=
  Exec (Sem.watching ExportLook (WriteOp F) view) R p s a s'

theorem not_saw_refuse {α : Type} {r : ExportRefusal} {a : α} : ¬Saw view R (refuse r) s a s' :=
  not_exec_fail

variable (hrefl : ∀ s, R s s) (htrans : ∀ a b c, R a b → R b c → R a c)

theorem saw_publishedRecord (h : Saw view R publishedRecord s record s') :
    ∃ s₁, R s s₁ ∧ R s₁ s' ∧ (view s₁).world.store.readRecord = .published record := by
  obtain ⟨s₁, h₁, h⟩ := exec_read_bind.mp h
  split at h
  · rename_i r hr
    obtain ⟨rfl, h₂⟩ := exec_ret.mp h
    exact ⟨s₁, h₁, h₂, hr⟩
  · obtain ⟨s₂, -, h⟩ := exec_read_bind.mp h
    split at h <;> exact absurd h not_saw_refuse
  · exact absurd h not_saw_refuse
  · exact absurd h not_saw_refuse

include htrans in
theorem saw_digestTable {table : DigestTable} (h : Saw view R (digestTable record) s table s') :
    ∃ s₁, R s s₁ ∧ R s₁ s' ∧ (view s₁).world.store.digests.map Stamped.content = some table := by
  obtain ⟨s₁, h₁, h⟩ := exec_read_bind.mp h
  obtain ⟨s₂, h₂, h⟩ := exec_read_bind.mp h
  split at h
  · exact absurd h not_saw_refuse
  · rename_i found hfound
    obtain ⟨s₃, h₃, h⟩ := exec_read_bind.mp h
    split at h
    · exact absurd h not_saw_refuse
    · split at h
      · exact absurd h not_saw_refuse
      · obtain ⟨rfl, h₄⟩ := exec_ret.mp h
        exact ⟨s₂, htrans _ _ _ h₁ h₂, htrans _ _ _ h₃ h₄, hfound⟩

include htrans in
theorem saw_certifiedGraph {graph : Graph F} (h : Saw view R (certifiedGraph record) s graph s') :
    ∃ s₁, R s s₁ ∧ R s₁ s' ∧ (view s₁).world.store.graph.map Stamped.content = some graph := by
  unfold certifiedGraph at h
  split at h
  · exact absurd h not_saw_refuse
  · obtain ⟨s₁, h₁, h⟩ := exec_read_bind.mp h
    split at h
    · exact absurd h not_saw_refuse
    · obtain ⟨s₂, h₂, h⟩ := exec_read_bind.mp h
      split at h
      · exact absurd h not_saw_refuse
      · rename_i found hfound
        split at h
        · exact absurd h not_saw_refuse
        · obtain ⟨s₃, h₃, h⟩ := exec_read_bind.mp h
          split at h
          · exact absurd h not_saw_refuse
          · obtain ⟨s₄, h₄, h⟩ := exec_read_bind.mp h
            split at h
            · exact absurd h not_saw_refuse
            · obtain ⟨rfl, h₅⟩ := exec_ret.mp h
              exact ⟨s₂, htrans _ _ _ h₁ h₂, htrans _ _ _ h₃ (htrans _ _ _ h₄ h₅), hfound⟩

include htrans in
theorem saw_readMessaging {stamped : OwnerStamped (FragmentCacheEntry F)}
    (h : Saw view R (readMessaging record) s stamped s') :
    ∃ s₁, R s s₁ ∧ R s₁ s' ∧ (view s₁).world.store.cache.map Stamped.content = some stamped ∧
      stamped.owner = some record.owner := by
  obtain ⟨s₁, h₁, h⟩ := exec_read_bind.mp h
  obtain ⟨s₂, h₂, h⟩ := exec_read_bind.mp h
  split at h
  · exact absurd h not_saw_refuse
  · rename_i found hfound
    split at h
    · exact absurd h not_saw_refuse
    · rename_i howner
      obtain ⟨s₃, h₃, h⟩ := exec_read_bind.mp h
      split at h
      · exact absurd h not_saw_refuse
      · obtain ⟨rfl, h₄⟩ := exec_ret.mp h
        exact ⟨s₂, htrans _ _ _ h₁ h₂, htrans _ _ _ h₃ h₄, hfound, not_not.mp howner⟩

include htrans in
theorem saw_readManifest {manifest : Option Value} (h : Saw view R readManifest s manifest s') :
    ∃ s₁, R s s₁ ∧ R s₁ s' ∧ (view s₁).world.store.manifest.map Stamped.content = manifest := by
  obtain ⟨s₁, h₁, h⟩ := exec_read_bind.mp h
  split at h
  · rw [← Prog.bind_ret (Prog.read _ _)] at h
    obtain ⟨s₂, h₂, h⟩ := exec_read_bind.mp h
    obtain ⟨rfl, h₃⟩ := exec_ret.mp h
    exact ⟨s₂, htrans _ _ _ h₁ h₂, h₃, rfl⟩
  · rename_i habsent
    obtain ⟨rfl, h₂⟩ := exec_ret.mp h
    refine ⟨s₁, h₁, h₂, ?_⟩
    simpa [Sem.watching] using habsent

include htrans in
/-- The closing half found the record's generation, and later the same facts file. -/
theorem saw_confirmUnchanged {cacheIdentity factsIdentity : Option ArtifactIdentity}
    {validation : Validation} {u : Unit}
    (h : Saw view R (confirmUnchanged record cacheIdentity factsIdentity validation) s u s') :
    ∃ s₁ s₂ last, R s s₁ ∧ R s₁ s₂ ∧ R s₂ s' ∧
      (view s₁).world.store.readRecord = .published last ∧ last.generation = record.generation ∧
      (view s₂).facts.map Stamped.ident = factsIdentity := by
  -- six refusals; what is left is a load that compared everything
  unfold confirmUnchanged at h
  split at h
  · exact absurd h not_saw_refuse
  · obtain ⟨s₁, h₁, h⟩ := exec_read_bind.mp h
    split at h
    · rename_i last hlast
      split at h
      · exact absurd h not_saw_refuse
      · rename_i hgeneration
        obtain ⟨s₂, h₂, h⟩ := exec_read_bind.mp h
        split at h
        · exact absurd h not_saw_refuse
        · obtain ⟨s₃, h₃, h⟩ := exec_read_bind.mp h
          split at h
          · exact absurd h not_saw_refuse
          · obtain ⟨s₄, h₄, h⟩ := exec_read_bind.mp h
            split at h
            · exact absurd h not_saw_refuse
            · obtain ⟨s₅, h₅, h⟩ := exec_read_bind.mp h
              split at h
              · exact absurd h not_saw_refuse
              · rename_i hfacts
                obtain ⟨-, h₆⟩ := exec_ret.mp h
                exact ⟨s₁, s₅, last, h₁,
                  htrans _ _ _ h₂ (htrans _ _ _ h₃ (htrans _ _ _ h₄ h₅)), h₆, hlast,
                  not_not.mp hgeneration, not_not.mp hfacts⟩
    · exact absurd h not_saw_refuse

/-- What a completed export saw, in the order it looked. -/
structure LoadSaw (view : S → Index F) (R : S → S → Prop) (s s' : S) (snap : Snapshot F) : Prop where
  seen : ∃ s₁ s₂ s₃ s₄ s₅ s₆ s₇ s₈ s₉ last,
    R s s₁ ∧ R s₁ s₂ ∧ R s₂ s₃ ∧ R s₃ s₄ ∧ R s₄ s₅ ∧ R s₅ s₆ ∧ R s₆ s₇ ∧ R s₇ s₈ ∧ R s₈ s₉ ∧ R s₉ s' ∧
    (view s₁).world.store.readRecord = .published snap.record ∧
    (view s₂).world.store.digests.map Stamped.content = some snap.digests ∧
    (view s₃).world.store.graph.map Stamped.content = some snap.graph ∧
    (view s₄).world.store.cache.map Stamped.content = some snap.messaging ∧
    (view s₅).world.store.manifest.map Stamped.content = snap.manifest ∧
    (view s₆).facts.map Stamped.ident = (view s₉).facts.map Stamped.ident ∧
    (view s₇).facts.map Stamped.content = snap.compilerFacts ∧
    (view s₈).world.store.readRecord = .published last ∧
    last.generation = snap.record.generation
  owner : snap.messaging.owner = some snap.record.owner

include hrefl htrans in
theorem saw_loadBracketed {wt : Worktree} {asking : Option Str} {snap : Snapshot F}
    (h : Saw view R (loadBracketed E wt asking) s snap s') : LoadSaw view R s s' snap := by
  obtain ⟨s₀, h₀, h⟩ := exec_read_bind.mp h
  obtain ⟨record, t₁, hp, h⟩ := h.of_bind hrefl
  -- each part saw one state, and the states come in the order of the reads
  obtain ⟨s₁, h₁, r₁, hrecord⟩ := saw_publishedRecord hp
  obtain ⟨digests, t₂, hp, h⟩ := h.of_bind hrefl
  obtain ⟨s₂, h₂, r₂, hdigests⟩ := saw_digestTable htrans hp
  obtain ⟨graph, t₃, hp, h⟩ := h.of_bind hrefl
  obtain ⟨s₃, h₃, r₃, hgraph⟩ := saw_certifiedGraph htrans hp
  obtain ⟨messaging, t₄, hp, h⟩ := h.of_bind hrefl
  obtain ⟨s₄, h₄, r₄, hcache, howner⟩ := saw_readMessaging htrans hp
  obtain ⟨t₅, h₅, h⟩ := exec_read_bind.mp h
  obtain ⟨manifest, t₆, hp, h⟩ := h.of_bind hrefl
  obtain ⟨s₅, h₆, r₆, hmanifest⟩ := saw_readManifest htrans hp
  obtain ⟨s₆, h₇, h⟩ := exec_read_bind.mp h
  obtain ⟨s₇, h₈, h⟩ := exec_read_bind.mp h
  obtain ⟨finished, t₈, hp, h⟩ := h.of_bind hrefl
  have r₈ := hp.reaches htrans
  obtain ⟨u, t₉, hp, h⟩ := h.of_bind hrefl
  obtain ⟨s₈, s₉, last, h₉, h₁₀, r₉, hlast, hgeneration, hfacts⟩ := saw_confirmUnchanged htrans hp
  obtain ⟨rfl, h₁₁⟩ := exec_ret.mp h
  exact ⟨⟨s₁, s₂, s₃, s₄, s₅, s₆, s₇, s₈, s₉, last, htrans _ _ _ h₀ h₁, htrans _ _ _ r₁ h₂,
    htrans _ _ _ r₂ h₃, htrans _ _ _ r₃ h₄, htrans _ _ _ r₄ (htrans _ _ _ h₅ h₆),
    htrans _ _ _ r₆ h₇, h₈, htrans _ _ _ r₈ h₉, h₁₀, htrans _ _ _ r₉ h₁₁, hrecord, hdigests, hgraph,
    hcache, hmanifest, hfacts.symm, rfl, hlast, hgeneration⟩, howner⟩

end Bracket

end Devscout
