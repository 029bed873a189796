/-
# Devscout.Export.Generations -- one generation at a time

Map runs under the lock, edits, and admissions of compiler facts, over one state
directory. A published record is taken away before anything else is written, so while
one is in place the directory is the very one its run published into; and a generation
that has been superseded never comes back, because its token is spent.

The directory of each publication, the cache file of each run and the admissions so far
are bookkeeping, no program observes them.
-/

import Devscout.Export.Load
import Devscout.Freshness.Publishing
import Devscout.Freshness.Serialized

namespace Devscout

open Lib Lib.Files Lib.Atomic Relation

variable {F : Facts} (E : Engine F) (ident factsIdent : Supply)

/-- The runs, the cache files they installed by generation, and the admitted facts. -/
structure Shared (F : Facts) where
  sys : Sys F
  caches : List (Str × CacheFile F)
  facts : Option (StateFile F.CompilerFacts)
  admissions : Nat

/-- What an export observes of it. -/
def Shared.index (s : Shared F) : Index F := ⟨s.sys.world, s.facts⟩

/-- The cache file a write installs. -/
def installedCache (ident : Supply) (token : Str) (store : Store F) :
    WriteOp F → List (Str × CacheFile F)
  | .cache entries => [(token, ⟨ident store.renames, entries⟩)]
  | _ => []

/-- One step: an edit, a run's start, look, write or death under the map lock, or an
admission. -/
inductive SharedStep : Shared F → Shared F → Prop
  | edit (s : Shared F) (w : World F) (h : w.store = s.sys.world.store)
      (hfacts : w.compilerFacts = s.sys.world.compilerFacts) :
      SharedStep s { s with sys := { s.sys with world := w } }
  | start (s : Shared F) (wt : Worktree) (args : MapArgs)
      (hfresh : args.token ∉ s.sys.runs.map RunState.token)
      (hdone : ∀ run ∈ s.sys.runs, run.isDone = true) :
      SharedStep s { s with sys := s.sys.started E wt args }
  | look (s : Shared F) (pre post : List (RunState F)) (run : RunState F) (tag : Look)
      (k : World F → MapProg F (MapReport F)) (hruns : s.sys.runs = pre ++ run :: post)
      (hprog : run.prog = .look tag k) :
      SharedStep s { s with sys := { s.sys with runs := pre ++
        { run with prog := k s.sys.world, log := run.log.see s.sys.world.store tag } :: post } }
  | write (s : Shared F) (pre post : List (RunState F)) (run : RunState F) (op : WriteOp F)
      (p : MapProg F (MapReport F)) (hruns : s.sys.runs = pre ++ run :: post)
      (hprog : run.prog = .put op p) :
      SharedStep s { s with
        sys :=
          { world := s.sys.world.apply ident op
            runs := pre ++
              { run with prog := p, log := run.log.note ident s.sys.world.store op } :: post
            publications := s.sys.publications ++
              if isPublication op then [s.sys.world.store.apply ident op] else [] }
        caches := s.caches ++ installedCache ident run.token s.sys.world.store op }
  | die (s : Shared F) (pre post : List (RunState F)) (run : RunState F)
      (hruns : s.sys.runs = pre ++ run :: post) :
      SharedStep s { s with sys := { s.sys with runs := pre ++ { run with prog := .fail [] } :: post } }
  | admission (s : Shared F) (artifact : F.CompilerFacts) :
      SharedStep s { s with
        sys := { s.sys with world := { s.sys.world with compilerFacts := some artifact } }
        facts := some ⟨factsIdent s.admissions, artifact⟩
        admissions := s.admissions + 1 }

variable {E ident factsIdent} {s s' s'' : Shared F}

/-- Every step is one of the locked system, seen without the bookkeeping. -/
theorem SharedStep.sys (h : SharedStep E ident factsIdent s s') :
    SysStep E ident serialized s.sys s'.sys := by
  cases h with
  | edit w h hfacts => exact .edit _ w h
  | start wt args hfresh hdone => exact .start _ wt args hfresh hdone
  | look pre post run tag k hruns hprog => exact .look _ pre post run tag k hruns hprog trivial
  | write pre post run op p hruns hprog => exact .write _ pre post run op p hruns hprog
  | die pre post run hruns => exact .die _ pre post run hruns
  | admission artifact => exact .edit _ _ rfl

theorem SharedStep.caches (h : SharedStep E ident factsIdent s s') : s.caches ⊆ s'.caches := by
  cases h with
  | write => exact List.subset_append_left _ _
  | _ => exact List.Subset.refl _

/-! ## What a publication stands on -/

/-- The graph and the cache of a publication: the run of its generation installed both,
or left both as they were published before under its owner, having found the graph the
one certified there. -/
inductive Kept (s : Shared F) (run : RunState F) (owner : Str) (st : Store F) : Prop
  | installed (hgraph : run.log.graph.isSome = true ∧ st.graph = run.log.graph)
      (file : CacheFile F) (hcache : st.cache = some file) (hmem : (run.token, file) ∈ s.caches)
  | verified (hlog : run.log.graph = none ∧ run.log.verified = some st.graphIdentity)
      (prior : Store F) (hprior : prior ∈ s.sys.publications) (record : Record)
      (hrecord : prior.record.map Stamped.content = some (.published record))
      (howner : record.owner = owner) (hcertified : record.artifacts.graph = st.graphIdentity)
      (hgraph : st.graph = prior.graph) (hcache : st.cache = prior.cache)

/-- The run of a record's generation certified or verified everything beside it. -/
structure Stands (s : Shared F) (st : Store F) (r : Record) (run : RunState F) : Prop where
  token : run.token = r.generation
  artifacts : r.artifacts = ⟨st.graphIdentity, st.manifestIdentity⟩
  sampledGraph : run.log.sampledGraph = some r.artifacts.graph
  sampledManifest : run.log.sampledManifest = some r.artifacts.manifest
  table : ∃ t, st.digests.map Stamped.content = some t ∧ t.generation = r.generation ∧
    run.log.table = some t
  manifest : run.log.manifest.isSome = true ∧ st.manifest = run.log.manifest
  kept : Kept s run r.owner st

theorem Kept.grows {run run' : RunState F} {owner : Str} {st : Store F} (h : Kept s run owner st)
    (htoken : run'.token = run.token) (hgraph : run'.log.graph = run.log.graph)
    (hverified : ∀ i, run.log.verified = some i → run'.log.verified = some i)
    (hcaches : s.caches ⊆ s'.caches) (hpubs : s.sys.publications ⊆ s'.sys.publications) :
    Kept s' run' owner st := by
  cases h with
  | installed hg file hcache hmem =>
      exact .installed (hgraph ▸ hg) file hcache (htoken ▸ hcaches hmem)
  | verified hlog prior hprior record hrecord howner hcertified hg hcache =>
      exact .verified ⟨hgraph.trans hlog.1, hverified _ hlog.2⟩ prior (hpubs hprior) record hrecord
        howner hcertified hg hcache

/-- Later steps leave it standing, on the same run. -/
theorem Stands.grows {st : Store F} {r : Record} {run : RunState F} (hmem : run ∈ s.sys.runs)
    (h : Stands s st r run) (hgrows : Grows ident s.sys s'.sys) (hcaches : s.caches ⊆ s'.caches) :
    ∃ run' ∈ s'.sys.runs, Stands s' st r run' := by
  obtain ⟨run', hrun', htoken, hlog⟩ := hgrows.runs run hmem
  obtain ⟨hsg, hgraph⟩ := hlog.sampledGraph _ h.sampledGraph
  obtain ⟨hsm, hmanifest⟩ := hlog.sampledManifest _ h.sampledManifest
  obtain ⟨t, ht, hgeneration, htable⟩ := h.table
  exact ⟨run', hrun', htoken.trans h.token, h.artifacts, hsg, hsm,
    ⟨t, ht, hgeneration, hlog.table t htable⟩, by rw [hmanifest]; exact h.manifest,
    h.kept.grows htoken hgraph hlog.verified hcaches hgrows.publications⟩

/-! ## The invariant -/

/-- What the next writes of a run rest on. -/
structure Owing (ident : Supply) (s : Shared F) (run : RunState F) : Prop where
  closing : run.prog.Closing (isPublication · = true)
  alone : run.isDone = false → ∃ began cache,
    Alone ident began (fun _ _ => True) run.prog ⟨s.sys.world, run.log, cache⟩ ∧
      (∀ r, began.readRecord = .published r → began ∈ s.sys.publications) ∧
      ∀ file, cache = some file → (run.token, file) ∈ s.caches
  unspent : run.isDone = false → ∀ st ∈ s.sys.publications, ∀ r,
    st.record.map Stamped.content = some (.published r) → r.generation ≠ run.token

/-- One publication a generation, each standing on its run. -/
structure Published (s : Shared F) : Prop where
  record : ∀ st ∈ s.sys.publications, ∃ r, st.record.map Stamped.content = some (.published r)
  stands : ∀ st ∈ s.sys.publications, ∀ r,
    st.record.map Stamped.content = some (.published r) → ∃ run ∈ s.sys.runs, Stands s st r run
  distinct : ∀ st ∈ s.sys.publications, ∀ st' ∈ s.sys.publications, ∀ r r',
    st.record.map Stamped.content = some (.published r) →
    st'.record.map Stamped.content = some (.published r') →
    r.generation = r'.generation → st = st'
  current : s.sys.world.store.IsPublished → s.sys.world.store ∈ s.sys.publications

structure Serial (ident factsIdent : Supply) (s : Shared F) : Prop where
  locked : Locked ident s.sys
  published : Published s
  owing : ∀ run ∈ s.sys.runs, Owing ident s run
  dated : Dated factsIdent s.admissions s.facts
  agree : s.sys.world.compilerFacts = s.facts.map Stamped.content

/-! ## One step -/

theorem Tracked.Alone.trans {a b c : Tracked F} (hab : a.Alone b) (hbc : b.Alone c) : a.Alone c :=
  ⟨hbc.store.trans hab.store, hbc.log.trans hab.log, hbc.cache.trans hab.cache⟩

/-- What stands goes on standing when nothing is published. -/
theorem Published.keep (h : Published s) (hgrows : Grows ident s.sys s'.sys)
    (hcaches : s.caches ⊆ s'.caches) (hpubs : s'.sys.publications = s.sys.publications)
    (hcurrent : s'.sys.world.store.IsPublished → s'.sys.world.store ∈ s.sys.publications) :
    Published s' where
  record := by
    rw [hpubs]
    exact h.record
  stands := fun st hst r hr => by
    rw [hpubs] at hst
    obtain ⟨run, hrun, hstands⟩ := h.stands st hst r hr
    exact hstands.grows hrun hgrows hcaches
  distinct := by
    rw [hpubs]
    exact h.distinct
  current := by
    rw [hpubs]
    exact hcurrent

/-- A run that does not act owes what it owed, as long as the directory stands still. -/
theorem Owing.keep {run : RunState F} (h : Owing ident s run)
    (hstore : s'.sys.world.store = s.sys.world.store) (hcaches : s.caches ⊆ s'.caches)
    (hpubs : s'.sys.publications = s.sys.publications) : Owing ident s' run where
  closing := h.closing
  alone := fun hlive => by
    obtain ⟨began, cache, halone, hbegan, hcache⟩ := h.alone hlive
    have hmoved : Tracked.Alone (⟨s.sys.world, run.log, cache⟩ : Tracked F)
        ⟨s'.sys.world, run.log, cache⟩ := ⟨hstore, rfl, rfl⟩
    refine ⟨began, cache,
      Safe.env (R := Tracked.Alone) (fun _ _ _ hab hbc => hab.trans hbc) halone hmoved, ?_,
      fun file hfile => hcaches (hcache file hfile)⟩
    rw [hpubs]
    exact hbegan
  unspent := by
    rw [hpubs]
    exact h.unspent

/-- A run with nothing left to do owes nothing. -/
theorem Owing.of_done {run : RunState F} (hclosing : run.prog.Closing (isPublication · = true))
    (hdone : run.isDone = true) : Owing ident s run :=
  ⟨hclosing, fun hlive => absurd (hdone.symm.trans hlive) nofun,
    fun hlive => absurd (hdone.symm.trans hlive) nofun⟩

/-- The run that looks goes on owing. -/
theorem Owing.look {run : RunState F} {tag : Look} {k : World F → MapProg F (MapReport F)}
    (h : Owing ident s run) (hprog : run.prog = .look tag k)
    (hstore : s'.sys.world = s.sys.world) (hcaches : s'.caches = s.caches)
    (hpubs : s'.sys.publications = s.sys.publications) :
    Owing ident s'
      { run with prog := k s.sys.world, log := run.log.see s.sys.world.store tag } := by
  have hlive : run.isDone = false := by simp [RunState.isDone, hprog]
  have hclosing := h.closing
  obtain ⟨began, cache, halone, hbegan, hcache⟩ := h.alone hlive
  rw [hprog] at hclosing halone
  refine ⟨hclosing s.sys.world, fun _ => ⟨began, cache, ?_, ?_, ?_⟩, fun _ => ?_⟩
  · rw [hstore]
    exact halone _ ⟨rfl, rfl, rfl⟩
  · rw [hpubs]
    exact hbegan
  · rw [hcaches]
    exact hcache
  · rw [hpubs]
    exact h.unspent hlive

/-- What the run that writes owes at this write. -/
theorem Owing.owes {run : RunState F} {op : WriteOp F} {p : MapProg F (MapReport F)}
    (h : Owing ident s run) (hprog : run.prog = .put op p) :
    ∃ began cache, Owes began ⟨s.sys.world, run.log, cache⟩ op ∧
      Alone ident began (fun _ _ => True) p
        ((Tracked.sem ident).apply op ⟨s.sys.world, run.log, cache⟩) ∧
      (∀ r, began.readRecord = .published r → began ∈ s.sys.publications) ∧
      ∀ file, cache = some file → (run.token, file) ∈ s.caches := by
  have hlive : run.isDone = false := by simp [RunState.isDone, hprog]
  obtain ⟨began, cache, halone, hbegan, hcache⟩ := h.alone hlive
  rw [hprog] at halone
  obtain ⟨howes, hrest⟩ := halone ⟨s.sys.world, run.log, cache⟩ ⟨rfl, rfl, rfl⟩
  exact ⟨began, cache, howes, hrest, hbegan, hcache⟩

/-- The run that writes goes on owing; once it has published it is done. -/
theorem Owing.write {run : RunState F} {op : WriteOp F} {p : MapProg F (MapReport F)}
    (h : Owing ident s run) (hprog : run.prog = .put op p)
    (hworld : s'.sys.world = s.sys.world.apply ident op)
    (hcaches : s'.caches = s.caches ++ installedCache ident run.token s.sys.world.store op)
    (hpubs : s'.sys.publications = s.sys.publications ++
      if isPublication op then [s.sys.world.store.apply ident op] else []) :
    Owing ident s' { run with prog := p, log := run.log.note ident s.sys.world.store op } := by
  have hlive : run.isDone = false := by simp [RunState.isDone, hprog]
  have hclosing := h.closing
  rw [hprog] at hclosing
  cases hop : isPublication op with
  | true =>
      -- a publication is the last thing a run writes, so nothing is owed after it
      obtain ⟨report, hdone⟩ := hclosing.1 hop
      exact .of_done hclosing.2 (by simp [RunState.isDone, hdone])
  | false =>
      rw [hop] at hpubs
      have hpubs : s'.sys.publications = s.sys.publications := by simpa using hpubs
      obtain ⟨began, cache, -, hrest, hbegan, hcache⟩ := h.owes hprog
      refine ⟨hclosing.2, fun _ => ⟨began, noteCache ident s.sys.world.store cache op, ?_, ?_, ?_⟩,
        fun _ => ?_⟩
      · rw [hworld]
        exact hrest
      · rw [hpubs]
        exact hbegan
      · intro file hfile
        rw [hcaches]
        cases op with
        | cache entries =>
            -- what the run now owes for is the cache it has just installed
            obtain rfl : _ = file := Option.some.inj hfile
            exact List.mem_append_right _ List.mem_cons_self
        | _ => exact List.mem_append_left _ (hcache file hfile)
      · rw [hpubs]
        exact h.unspent hlive

/-- **A publication stands on its run.** -/
theorem stands_of_publication {run run' : RunState F} {r : Record} {p : MapProg F (MapReport F)}
    (howing : Owing ident s run) (hprog : run.prog = .put (.record (.published r)) p)
    (hobeys : Obeys run.wt.owner run.token run.log (.record (.published r) : WriteOp F))
    (hholds : Holds s.sys.world.store run.log) (htoken : run'.token = run.token)
    (hlog : run'.log = run.log) (hcaches : s.caches ⊆ s'.caches)
    (hpubs : s.sys.publications ⊆ s'.sys.publications) :
    Stands s' (s.sys.world.store.apply ident (.record (.published r))) r run' := by
  obtain ⟨began, cache, howes, -, hbegan, hcache⟩ := howing.owes hprog
  obtain ⟨-, hgeneration, htable, hgraph, hmanifest⟩ := hobeys
  obtain ⟨t, ht, htgen⟩ := Option.map_eq_some_iff.mp htable
  have hmade := howes.made r rfl
  refine ⟨htoken.trans hgeneration.symm, ?_, by rw [hlog]; exact hgraph, by rw [hlog]; exact hmanifest,
    ⟨t, hholds.table t ht, htgen.trans hgeneration.symm, by rw [hlog]; exact ht⟩,
    by rw [hlog]; exact howes.manifest rfl, ?_⟩
  · -- the log has the artifacts as the store still holds them
    have hg : s.sys.world.store.graphIdentity = r.artifacts.graph := hholds.graph _ hgraph
    have hm : s.sys.world.store.manifestIdentity = r.artifacts.manifest := hholds.manifest _ hmanifest
    exact congrArg₂ Artifacts.mk hg.symm hm.symm
  · cases hmade with
    | installed hg hc =>
        -- the graph is the run's own, or one it verified against an earlier publication
        obtain ⟨file, hfile⟩ := Option.isSome_iff_exists.mp hc.1
        refine .installed (by rw [hlog]; exact hg) file (hc.2.trans hfile) ?_
        rw [htoken]
        exact hcaches (hcache file hfile)
    | verified hv hg hc prior hprior howner hcertified =>
        refine .verified (by rw [hlog]; exact hv) began (hpubs (hbegan prior hprior)) prior
          (content_of_readRecord hprior) howner (hcertified.trans ?_) hg hc
        exact (congrArg (Option.map Stamped.ident) hg).symm

/-- A write publishes under a fresh generation, or leaves no record in place. -/
theorem Published.write (h : Serial ident factsIdent s) {pre post : List (RunState F)}
    {run : RunState F} {op : WriteOp F} {p : MapProg F (MapReport F)}
    (hruns : s.sys.runs = pre ++ run :: post) (hprog : run.prog = .put op p)
    (hgrows : Grows ident s.sys s'.sys) (hcaches : s.caches ⊆ s'.caches)
    (hworld : s'.sys.world = s.sys.world.apply ident op)
    (hruns' : s'.sys.runs =
      pre ++ { run with prog := p, log := run.log.note ident s.sys.world.store op } :: post)
    (hpubs : s'.sys.publications = s.sys.publications ++
      if isPublication op then [s.sys.world.store.apply ident op] else []) : Published s' := by
  have hmem : run ∈ s.sys.runs := hruns ▸ List.mem_append_right _ List.mem_cons_self
  have hlive : run.isDone = false := by simp [RunState.isDone, hprog]
  have howing := h.owing run hmem
  cases hop : isPublication op with
  | false =>
      rw [hop] at hpubs
      -- no other write leaves a published record behind
      obtain ⟨began, cache, howes, -⟩ := howing.owes hprog
      refine h.published.keep hgrows hcaches (by simpa using hpubs) fun hpublished => ?_
      rw [hworld] at hpublished
      exact absurd hpublished (unpublished_apply ident hop howes.unpublished)
  | true =>
      obtain ⟨r, rfl⟩ : ∃ r, op = .record (.published r) := by
        cases op with
        | record file => cases file <;> first | exact ⟨_, rfl⟩ | cases hop
        | _ => cases hop
      have hpubs : s'.sys.publications = s.sys.publications ++
          [s.sys.world.store.apply ident (.record (.published r))] := hpubs
      have hobeys := h.locked.inv.acting hruns
      rw [RunState.Obeying, hprog] at hobeys
      have hobeys := (hobeys _ rfl).1
      have hstands : Stands s' (s.sys.world.store.apply ident (.record (.published r))) r
          { run with prog := p, log := run.log.note ident s.sys.world.store (.record (.published r)) } :=
        stands_of_publication howing hprog hobeys (h.locked.holds run hmem hlive) rfl rfl hcaches
          hgrows.publications
      have hrecord : ∀ r', ((s.sys.world.store.apply ident
          (.record (.published r)) : Store F).record.map Stamped.content) =
            some (.published r') → r' = r := by
        intro r' hr'
        simpa [Store.apply, Store.fresh, eq_comm] using hr'
      -- its generation is the run's token, which no publication before it has
      have hunspent : ∀ st ∈ s.sys.publications, ∀ r',
          st.record.map Stamped.content = some (.published r') → r'.generation ≠ r.generation := by
        intro st hst r' hr'
        rw [hobeys.2.1]
        exact howing.unspent hlive st hst r' hr'
      refine ⟨fun st hst => ?_, fun st hst r' hr' => ?_, fun st hst st' hst' r₁ r₂ h₁ h₂ heq => ?_,
        fun _ => ?_⟩
      · rw [hpubs, List.mem_append] at hst
        rcases hst with hold | hnew
        · exact h.published.record st hold
        · rw [List.mem_singleton.mp hnew]
          exact ⟨r, rfl⟩
      · rw [hpubs, List.mem_append] at hst
        rcases hst with hold | hnew
        · obtain ⟨run', hrun', hstands'⟩ := h.published.stands st hold r' hr'
          exact hstands'.grows hrun' hgrows hcaches
        · obtain rfl := List.mem_singleton.mp hnew
          rw [hrecord r' hr']
          exact ⟨_, by rw [hruns']; exact List.mem_append_right _ List.mem_cons_self, hstands⟩
      · rw [hpubs, List.mem_append] at hst hst'
        rcases hst with hold | hnew <;> rcases hst' with hold' | hnew'
        · exact h.published.distinct st hold st' hold' r₁ r₂ h₁ h₂ heq
        · obtain rfl := List.mem_singleton.mp hnew'
          rw [hrecord r₂ h₂] at heq
          exact absurd heq (hunspent st hold r₁ h₁)
        · obtain rfl := List.mem_singleton.mp hnew
          rw [hrecord r₁ h₁] at heq
          exact absurd heq.symm (hunspent st' hold' r₂ h₂)
        · rw [List.mem_singleton.mp hnew, List.mem_singleton.mp hnew']
      · rw [hworld, hpubs]
        exact List.mem_append_right _ List.mem_cons_self

theorem serial_step (h : Serial ident factsIdent s) (hs : SharedStep E ident factsIdent s s') :
    Serial ident factsIdent s' := by
  have hlocked := locked_step h.locked hs.sys
  have hgrows := step_grows h.locked.inv hs.sys
  have hcaches := hs.caches
  cases hs with
  | edit w hstore hfacts =>
      refine ⟨hlocked, h.published.keep hgrows hcaches rfl fun hpub => ?_,
        fun run hrun => (h.owing run hrun).keep hstore hcaches rfl, h.dated, hfacts.trans h.agree⟩
      rw [show ({ s with sys := { s.sys with world := w } } : Shared F).sys.world.store =
        s.sys.world.store from hstore] at hpub ⊢
      exact h.published.current hpub
  | start wt args hfresh hdone =>
      refine ⟨hlocked, h.published.keep hgrows hcaches rfl h.published.current, fun run hrun => ?_,
        h.dated, h.agree⟩
      rcases List.mem_append.mp hrun with hold | hnew
      · exact (h.owing run hold).keep rfl hcaches rfl
      · rw [List.mem_singleton.mp hnew]
        refine ⟨closing_mapRepo E wt args, fun _ => ⟨s.sys.world.store, none, ?_, fun r hr => ?_,
          nofun⟩, fun _ st hst r hr hspent => ?_⟩
        · exact mapRepo_alone E wt args ⟨rfl, rfl, rfl, nofun⟩
        · exact h.published.current ⟨r, content_of_readRecord hr⟩
        · -- the token of a publication is that of an earlier run
          obtain ⟨run', hrun', hstands⟩ := h.published.stands st hst r hr
          exact hfresh (List.mem_map.mpr ⟨run', hrun', hstands.token.trans hspent⟩)
  | look pre post run tag k hruns hprog =>
      refine ⟨hlocked, h.published.keep hgrows hcaches rfl h.published.current, fun r hr => ?_,
        h.dated, h.agree⟩
      rcases mem_replaced hr with rfl | hold
      · exact (h.owing run (hruns ▸ List.mem_append_right _ List.mem_cons_self)).look hprog rfl rfl
          rfl
      · exact (h.owing r (hruns ▸ hold)).keep rfl hcaches rfl
  | write pre post run op p hruns hprog =>
      have hmem : run ∈ s.sys.runs := hruns ▸ List.mem_append_right _ List.mem_cons_self
      have hlive : run.isDone = false := by simp [RunState.isDone, hprog]
      -- only the last run is alive, so it is the one that writes
      obtain ⟨rfl, hpre⟩ := last_of_live (hruns ▸ h.locked.alone) hlive
      refine ⟨hlocked, .write h hruns hprog hgrows hcaches rfl rfl rfl, fun r hr => ?_, h.dated, h.agree⟩
      rcases List.mem_append.mp hr with hother | hself
      · exact .of_done (h.owing r (hruns ▸ List.mem_append_left _ hother)).closing (hpre r hother)
      · rw [List.mem_singleton.mp hself]
        exact (h.owing run hmem).write hprog rfl rfl rfl
  | die pre post run hruns =>
      refine ⟨hlocked, h.published.keep hgrows hcaches rfl h.published.current, fun r hr => ?_,
        h.dated, h.agree⟩
      rcases mem_replaced hr with rfl | hold
      · exact .of_done trivial rfl
      · exact (h.owing r (hruns ▸ hold)).keep rfl hcaches rfl
  | admission artifact =>
      exact ⟨hlocked, h.published.keep hgrows hcaches rfl h.published.current,
        fun run hrun => (h.owing run hrun).keep rfl hcaches rfl, Dated.rename factsIdent _ artifact,
        rfl⟩

/-- A directory that was never mapped, no facts admitted. -/
def Shared.init (w : World F) : Shared F :=
  ⟨Sys.init { w with compilerFacts := none }, [], none, 0⟩

theorem serial_init (w : World F) : Serial ident factsIdent (Shared.init w) where
  locked := locked_init _
  published :=
    ⟨fun _ hst => absurd hst List.not_mem_nil, fun _ hst => absurd hst List.not_mem_nil,
      fun _ hst => absurd hst List.not_mem_nil, fun ⟨_, hr⟩ => by cases hr⟩
  owing := fun _ hrun => absurd hrun List.not_mem_nil
  dated := Dated.none factsIdent _
  agree := rfl

theorem serial_steps (h : Serial ident factsIdent s)
    (hs : ReflTransGen (SharedStep E ident factsIdent) s s') : Serial ident factsIdent s' := by
  induction hs with
  | refl => exact h
  | tail _ hstep ih => exact serial_step ih hstep

end Devscout
