/-
# Devscout.Graph.Recovery -- crashes where there is no Git

Without a Git administrative directory there is no marker and no record: prior state
is always trusted, and only the write order and the index test stand between a dead
run and the next one. `Recoverable` says when that is enough: the run that last wrote
the graph also wrote the index, or it worked from the very inputs the next run finds,
or the next run rebuilds and everything it reuses is in the cache.
-/

import Devscout.Graph.SkipRuns

namespace Devscout

open Lib Lib.Text Lib.Files Lib.Atomic

variable {F : Facts} {E : Engine F} {ident : Supply}

/-! ## Histories without Git -/

/-- `git rev-parse` has nothing to answer. -/
def NoGit (E : Engine F) (wt : Worktree) (w : World F) : Prop :=
  E.gitHead w.fs.dir (w.git wt.root) wt.root = none

/-- Runs at one root, each of which may die anywhere. -/
def withoutGit (E : Engine F) (wt : Worktree) : Setting F where
  world := NoGit E wt
  run := fun wt' _ => wt' = wt
  mayDie := true

theorem noGit_history {wt : Worktree} {w : World F} {last : Option (LastGraph F)}
    (h : History E ident (withoutGit E wt) w last) :
    NoGit E wt w ∧ ∀ l, last = some l → NoGit E wt l.world := by
  refine h.invariant (I := fun w last => NoGit E wt w ∧ ∀ l, last = some l → NoGit E wt l.world)
    ?_ ?_ ?_
  · exact fun w hw _ => ⟨hw, fun l hl => absurd hl (Option.some_ne_none l).symm⟩
  · exact fun w w' last hinv hw _ => ⟨hw, hinv.2⟩
  · intro w last wt' args p n hinv _ _ _
    refine ⟨?_, fun l hl => ?_⟩
    · rw [applyAll_world]
      exact hinv.1
    · split at hl
      · cases hl
        exact hinv.1
      · exact hinv.2 l hl

/-- Without an owner no run writes a record. -/
theorem noRecord_history {wt : Worktree} (hno : wt.owner = none) {w : World F}
    {last : Option (LastGraph F)} (h : History E ident (withoutGit E wt) w last) :
    w.store.record = none := by
  refine h.invariant (I := fun w _ => w.store.record = none) ?_ ?_ ?_
  · intro w _ hempty
    rw [hempty]
    rfl
  · exact fun w w' _ hinv _ hstore => hstore ▸ hinv
  · intro w last wt' args p n hinv hrun _ _
    obtain rfl : wt' = wt := hrun
    have hkept : ∀ (ops : List (WriteOp F)) (w : World F),
        (∀ op ∈ ops, ∀ file, op ≠ .record file) → w.store.record = none →
        (applyAll (World.apply ident) ops w).store.record = none := by
      intro ops
      induction ops with
      | nil => exact fun _ _ h => h
      | cons op ops ih =>
          intro w hops hw
          refine ih _ (fun op' h => hops op' (List.mem_cons_of_mem _ h)) ?_
          cases op with
          | record file => exact absurd rfl (hops _ List.mem_cons_self file)
          | removeRecord => rfl
          | transport inputs => cases inputs <;> exact hw
          | units units => cases units <;> exact hw
          | crates crates => cases crates <;> exact hw
          | _ => exact hw
    refine hkept _ _ ?_ hinv
    intro op hop file heq
    subst heq
    have hmem := List.mem_of_mem_take hop
    rw [commitOps_eq, List.mem_append, List.mem_append] at hmem
    rcases hmem with (hmem | hmem) | hmem
    · simp [openingOps, markOps, hno] at hmem
    · rw [graphOps] at hmem
      split at hmem
      · simp [rebuildOps] at hmem
      · cases hmem
    · simp [closingOps, publishOps, hno] at hmem

/-! ## What a run from an empty directory does -/

/-- Two runs that start over the same files plan the same walk and models. -/
theorem Planned.same_models {wt : Worktree} {args : MapArgs} {w w' : World F} {p p' : Plan F}
    (h : Planned E wt args w p) (h' : Planned E wt args w' p') (hfs : w'.fs = w.fs)
    (hgit : w'.git = w.git) (hregistry : w'.registry = w.registry)
    (hfacts : w'.compilerFacts = w.compilerFacts) :
    p'.files = p.files ∧ p'.models = p.models := by
  have hscope : p'.scope = p.scope := by
    have := h'.scope
    rw [hregistry, h.scope] at this
    exact (Except.ok.inj this).symm
  have hignored : p'.ignored = p.ignored := by
    have := h'.ignored
    rw [hfs, hgit, hscope, h.ignored] at this
    exact (Except.ok.inj this).symm
  have hfiles : p'.files = p.files := by
    have := h'.files
    rw [hfs, hscope, hignored, h.files] at this
    exact (Except.ok.inj this).symm
  have hgraphFiles : p'.graphFiles = p.graphFiles := by
    rw [h'.graphFiles_eq, h.graphFiles_eq, hfiles, hfs]
  obtain ⟨d, hmodel, hcrates⟩ := h.discovered
  obtain ⟨d', hmodel', hcrates'⟩ := h'.discovered
  rw [hfs, hscope, hignored, hmodel] at hmodel'
  obtain ⟨hmodels, rfl⟩ := Prod.mk.inj (Except.ok.inj hmodel')
  rw [hfs, hscope, hignored, hgraphFiles, hcrates] at hcrates'
  have hcratesEq := (Prod.mk.inj (Except.ok.inj hcrates')).1
  have hlane : p'.models.lane = p.models.lane := by
    rw [h'.lane, h.lane, hfs, hgit, hfacts]
  have htransport : p'.models.transport = p.models.transport := by
    rw [h'.transport, h.transport, hfs, ← hmodels, hfiles]
  refine ⟨hfiles, ?_⟩
  cases hm : p'.models
  cases hm' : p.models
  simp_all

theorem freshGraph_congr {wt : Worktree} {w w' : World F} {p p' : Plan F} (hfs : w'.fs = w.fs)
    (hgit : w'.git = w.git) (hfiles : p'.files = p.files) (hmodels : p'.models = p.models) :
    freshGraph E wt p' w' = freshGraph E wt p w := by
  simp only [freshGraph, freshMerged, hfs, hgit, hfiles, hmodels]

/-- The graph of a run whose reuse is covered. -/
theorem Planned.graphIn_eq {wt : Worktree} {args : MapArgs} {w : World F} {p : Plan F}
    (h : Planned E wt args w p) (hkey : E.KeyInjective) (htruthful : TruthfulCache E w.store)
    (hcovered : Covered E wt w) : graphIn E wt p w = freshGraph E wt p w := by
  rw [graphIn, freshGraph, freshMerged, h.mergedIn_eq hkey htruthful hcovered]

/-- An empty directory covers whatever is reused: nothing is. -/
theorem inSync_of_empty {owner : Option Str} {s : Store F} (h : s.graphSide = GraphSide.empty) :
    InSync owner s := by
  intro rel key hget
  rw [readFragmentsIndex_eq, h] at hget
  cases hget

theorem truthful_of_empty {s : Store F} (h : s.graphSide = GraphSide.empty) : TruthfulCache E s := by
  rw [truthfulCache_iff, h]
  intro c hc
  cases hc

theorem rebuildsIn_of_empty {p : Plan F} {w : World F} (h : w.store.graphSide = GraphSide.empty) :
    rebuildsIn p w = true := by
  by_contra hskip
  exact graph_of_skip (Bool.eq_false_iff.mpr hskip) h

/-- The graph a completed run that rebuilds leaves. -/
theorem graph_of_rebuild {wt : Worktree} {token : Str} {p : Plan F} {w : World F}
    (h : rebuildsIn p w = true) :
    (applyAll (World.apply ident) (commitOps E ident wt token p w) w).store.graphSide =
      rebuiltSide E wt p w := by
  obtain ⟨m, hside, -, -, hlen⟩ :=
    graphSide_cut E ident wt p w token (commitOps E ident wt token p w).length
  rw [List.take_length] at hside
  rw [graphSide_applyAll, hside, List.take_of_length_le (hlen le_rfl), graphSide_rebuilt h]

/-! ## When a dead run does no harm -/

/-- The run that last wrote the graph worked from the inputs the next one finds. -/
structure SameSources (E : Engine F) (wt : Worktree) (l : LastGraph F) (p : Plan F) : Prop where
  graphFiles : l.plan.graphFiles = p.graphFiles
  covered : Covered E wt l.world
  model : l.plan.models.model = p.models.model
  crates : l.plan.models.crates = p.models.crates
  transport : l.plan.models.transport = p.models.transport

/-- When the next run recovers from the one that last wrote the graph. -/
structure Recoverable (E : Engine F) (wt : Worktree) (l : LastGraph F) (p : Plan F) (w : World F) :
    Prop where
  skip : NothingStale p w →
    Unwatched E wt l p w ∧ (l.whole = true ∧ ListedAlike l p ∨ SameSources E wt l p)
  rebuild : ¬NothingStale p w → l.whole = true ∨ Covered E wt w

theorem freshEntries_of_graphFiles (hkey : E.KeyInjective) {wt : Worktree} {args args' : MapArgs}
    {w w' : World F} {p p' : Plan F} (h : Planned E wt args w p) (h' : Planned E wt args' w' p')
    (hsame : p.graphFiles = p'.graphFiles) :
    freshEntries E wt.root w.fs.dir p.files = freshEntries E wt.root w'.fs.dir p'.files := by
  rw [h.graphFiles_eq, h'.graphFiles_eq] at hsame
  have hrels : p.files.filter isGraphSource = p'.files.filter isGraphSource := by
    have := congrArg (List.map GraphFile.rel) hsame
    simpa [List.map_map, Function.comp_def] using this
  rw [freshEntries, freshEntries, ← hrels]
  rw [← hrels] at hsame
  refine List.filterMap_congr fun rel hrel => ?_
  have hkeys : currentKey E wt.root w.fs.dir rel = currentKey E wt.root w'.fs.dir rel :=
    congrArg GraphFile.mtime (List.map_inj_left.mp hsame rel hrel)
  have hextracted : extracted E wt.root w.fs.dir rel = extracted E wt.root w'.fs.dir rel := by
    rw [extracted, extracted]
    cases hread : readFile w.fs.dir (wt.root.join rel) with
    | some bytes =>
        have hthen : currentKey E wt.root w.fs.dir rel = E.cacheKey bytes := by
          simp only [currentKey, hread]
        rw [read_of_currentKey hkey (hkeys.symm.trans hthen)]
    | none =>
        cases hread' : readFile w'.fs.dir (wt.root.join rel) with
        | none => rfl
        | some bytes =>
            have hthen : currentKey E wt.root w'.fs.dir rel = E.cacheKey bytes := by
              simp only [currentKey, hread']
            rw [read_of_currentKey hkey (hkeys.trans hthen)] at hread
            cases hread
  rw [hextracted, hkeys]

theorem SameSources.inputs {wt : Worktree} {args₀ args : MapArgs} {l : LastGraph F} {w : World F}
    {p : Plan F} (h : SameSources E wt l p) (hkey : E.KeyInjective)
    (hl : Planned E wt args₀ l.world l.plan) (htruthful : TruthfulCache E l.world.store)
    (hp : Planned E wt args w p) : SameInputs E wt l p w where
  merged := by
    rw [hl.mergedIn_eq hkey htruthful h.covered, freshEntries_of_graphFiles hkey hl hp h.graphFiles]
  model := h.model
  crates := h.crates
  transport := fun _ => h.transport

/-- Without a record a run that finds nothing stale rebuilds only a graph that is not
there or not of the current schema. -/
theorem Planned.rebuildsIn_of_nothingStale {wt : Worktree} {args : MapArgs} {w : World F}
    {p : Plan F} (h : Planned E wt args w p) (hno : wt.owner = none)
    (hrecord : w.store.record = none) (hstale : NothingStale p w)
    (hcurrent : w.store.graphIsCurrent = true) : rebuildsIn p w = false := by
  have hprior : priorRecordIn w = none := by
    rw [priorRecordIn, Store.readRecord, hrecord]
    rfl
  have htrusted : p.graphTrusted = true := by
    rw [h.graphTrusted, priorMineIn, hprior, hno]
    rfl
  have hunits := hstale.units
  have hcrates := hstale.crates
  simp only [Store.graphSide] at hunits hcrates
  have htransport : transportSidecarDiffers (w.store.transport.map Stamped.content)
      p.models.transport = false := by
    cases hold : w.store.transport.map Stamped.content with
    | none => rfl
    | some old => simp [transportSidecarDiffers, hstale.transport old hold]
  rw [rebuildsIn, h.changed, htrusted, hstale.index, hstale.lane, htransport, hcurrent,
    unitsSidecarDiffers, cratesSidecarDiffers, hunits, hcrates]
  simp

/-- **Recovery without Git.** After any edits and any runs, dead or complete, the next
run that completes leaves the graph a run from an empty state directory would write,
provided the run that last wrote the graph left things `Recoverable`. -/
theorem recovered_graph_is_fresh (hkey : E.KeyInjective) {wt : Worktree} (hno : wt.owner = none)
    {w : World F} {last : Option (LastGraph F)} (hw : History E ident (withoutGit E wt) w last)
    {args : MapArgs} {ops : List (WriteOp F)} {report : MapReport F}
    (hrun : trace (World.apply ident) (mapRepo E wt args) w = (ops, some report))
    (hrecoverable : ∀ l, last = some l → Recoverable E wt l report.plan w)
    {ops₀ : List (WriteOp F)} {report₀ : MapReport F}
    (hrun₀ : trace (World.apply ident) (mapRepo E wt args) { w with store := Store.empty } =
      (ops₀, some report₀)) :
    (applyAll (World.apply ident) ops w).store.graph.map Stamped.content =
      (applyAll (World.apply ident) ops₀ { w with store := Store.empty }).store.graph.map
        Stamped.content := by
  obtain ⟨hp, rfl, -⟩ := planned_of_returned hrun
  obtain ⟨hp₀, rfl, -⟩ := planned_of_returned hrun₀
  generalize report.plan = p at hp hrecoverable ⊢
  generalize report₀.plan = p₀ at hp₀ ⊢
  have hinv := graphInv_history hkey (fun _ _ h => h) hw
  obtain ⟨hhead, hheads⟩ := noGit_history hw
  -- the run from the empty directory
  have hempty : ({ w with store := Store.empty } : World F).store.graphSide = GraphSide.empty := rfl
  obtain ⟨hfiles, hmodels⟩ := hp.same_models hp₀ rfl rfl rfl rfl
  have hright : (applyAll (World.apply ident) (commitOps E ident wt args.token p₀
      { w with store := Store.empty }) { w with store := Store.empty }).store.graphSide.graph =
      some (freshGraph E wt p w) := by
    rw [graph_of_rebuild (rebuildsIn_of_empty hempty)]
    refine congrArg some ?_
    rw [hp₀.graphIn_eq hkey (truthful_of_empty hempty) (covered_of_inSync (inSync_of_empty hempty))]
    exact freshGraph_congr rfl rfl hfiles hmodels
  refine Eq.trans ?_ hright.symm
  show (applyAll (World.apply ident) (commitOps E ident wt args.token p w) w).store.graphSide.graph =
    some (freshGraph E wt p w)
  cases hrebuilds : rebuildsIn p w with
  | true =>
      rw [graph_of_rebuild hrebuilds]
      have hcovered : Covered E wt w := by
        cases hlast : last with
        | none => exact covered_of_inSync (inSync_of_empty (hinv.fresh hlast))
        | some l =>
            have hleft := hinv.left l hlast
            have hcurrent : w.store.graphIsCurrent = true := by
              obtain ⟨file, hfile, hcontent⟩ := Option.map_eq_some_iff.mp hleft.graph
              rw [Store.graphIsCurrent, hfile]
              simp [hcontent, graphIn, resolveAll]
            have hstale : ¬NothingStale p w := by
              intro hstale
              rw [hp.rebuildsIn_of_nothingStale hno (noRecord_history hno hw) hstale hcurrent]
                at hrebuilds
              cases hrebuilds
            rcases (hrecoverable l hlast).rebuild hstale with hwhole | hcovered
            · have hside := hleft.whole hwhole
              exact covered_of_inSync (inSync_of_written (congrArg GraphSide.cache hside)
                (congrArg GraphSide.index hside))
            · exact hcovered
      rw [rebuiltSide, hp.graphIn_eq hkey hinv.truthful hcovered]
  | false =>
      rw [graphSide_of_skip hrebuilds]
      cases hlast : last with
      | none => exact absurd (hinv.fresh hlast) (graph_of_skip hrebuilds)
      | some l =>
          have hleft := hinv.left l hlast
          obtain ⟨args₀, hl⟩ := hleft.planned
          have hstale := hp.nothingStale (Bool.or_eq_false_iff.mp hrebuilds).1
          obtain ⟨hunwatched, hsources⟩ := (hrecoverable l hlast).skip hstale
          have hinputs : l.whole = true ∧ ListedAlike l p ∨ SameInputs E wt l p w :=
            hsources.imp_right fun h => h.inputs hkey hl hleft.truthful hp
          obtain ⟨hschema, hbody, htransport⟩ := hleft.skip hkey hp hrebuilds hinputs hunwatched
          have hheadEq : (graphIn E wt l.plan l.world).builtAtHead =
              (freshGraph E wt p w).builtAtHead :=
            (hheads l hlast).trans hhead.symm
          rw [hleft.graph]
          refine congrArg some ?_
          generalize graphIn E wt l.plan l.world = g at hschema hbody htransport hheadEq
          generalize freshGraph E wt p w = g' at hschema hbody htransport hheadEq
          obtain ⟨s, h, b, t⟩ := g
          obtain ⟨s', h', b', t'⟩ := g'
          simp_all

/-! ## One run that dies early, one that dies late -/

def gitless : Worktree := ⟨sampleRoot, none⟩

/-- One completed run over `x`, then an edit to `y`. -/
def editedOnce : World textFacts :=
  { crash (World.apply tickingSupply) 9 (mapRepo textEngine gitless (commandLine "src" "t0"))
      (World.ofTree (twoFiles "x" "y")) with fs := twoFiles "z" "y" }

def editedOnceLast : Option (LastGraph textFacts) :=
  lastAfter textEngine tickingSupply gitless (commandLine "src" "t0") 9
    (World.ofTree (twoFiles "x" "y")) none

theorem editedOnce_reached :
    History textEngine tickingSupply (withoutGit textEngine gitless) editedOnce editedOnceLast :=
  .edit (.run 9 (.start (by rfl) rfl) (by rfl) nofun) (by rfl) rfl

/-- A run over the edit that dies after `n` of its writes. -/
def diedAfter (n : Nat) : World textFacts :=
  crash (World.apply tickingSupply) n (mapRepo textEngine gitless (commandLine "src" "t1")) editedOnce

def diedAfterLast (n : Nat) : Option (LastGraph textFacts) :=
  lastAfter textEngine tickingSupply gitless (commandLine "src" "t1") n editedOnce editedOnceLast

theorem diedAfter_reached (n : Nat) :
    History textEngine tickingSupply (withoutGit textEngine gitless) (diedAfter n) (diedAfterLast n) :=
  .run n editedOnce_reached (by rfl) nofun

/-- The plan of the next run over a world. -/
def nextPlan (w : World textFacts) : Option (Plan textFacts) :=
  planOf textEngine tickingSupply gitless (commandLine "src" "t2") w

/-- The next run over a world. -/
def nextRun (w : World textFacts) : List (WriteOp textFacts) × Option (MapReport textFacts) :=
  trace (World.apply tickingSupply) (mapRepo textEngine gitless (commandLine "src" "t2")) w

/-- The graph the next run leaves. -/
def nextGraph (w : World textFacts) : Option (Graph textFacts) :=
  (applyAll (World.apply tickingSupply) (nextRun w).1 w).store.graph.map Stamped.content

theorem diedEarly_last : (diedAfterLast 3).isSome = true := by decide +kernel

theorem diedEarly_plans : (nextPlan (diedAfter 3)).isSome = true := by decide +kernel

theorem diedEarly_fresh_plans :
    (nextPlan { diedAfter 3 with store := Store.empty }).isSome = true := by decide +kernel

/-- A run that died before the graph left the index of a whole rebuild behind. -/
theorem recovered_from_early_death :
    nextGraph (diedAfter 3) = nextGraph { diedAfter 3 with store := Store.empty } := by
  have hrun := @trace_mapRepo_of_plan _ textEngine tickingSupply _ _ _ _
    (Option.some_get diedEarly_plans).symm
  have hrun₀ := @trace_mapRepo_of_plan _ textEngine tickingSupply _ _ _ _
    (Option.some_get diedEarly_fresh_plans).symm
  rw [nextGraph, nextGraph, nextRun, nextRun, hrun, hrun₀]
  refine recovered_graph_is_fresh textEngine_keyInjective rfl (diedAfter_reached 3) hrun ?_ hrun₀
  intro l hl
  obtain rfl : (diedAfterLast 3).get diedEarly_last = l := Option.get_of_eq_some _ hl
  refine ⟨fun hstale => absurd hstale.index (by decide +kernel), fun _ => Or.inl (by decide +kernel)⟩

/-- The C# files a graph was resolved from. -/
def resolvedFrom (g : Graph textFacts) : List (Str × Str) := TextGraph.cs g.body

/-- The edit is taken back after the run died with its graph written. -/
def editReverted : World textFacts := { diedAfter 4 with fs := twoFiles "x" "y" }

/-- The next run completes, finds the old index matching, and leaves the dead run's
graph over files it was not made from. -/
theorem torn_graph_kept :
    History textEngine tickingSupply (withoutGit textEngine gitless) editReverted (diedAfterLast 4) ∧
      (nextRun editReverted).2.isSome = true ∧
      (nextRun { editReverted with store := Store.empty }).2.isSome = true ∧
      nextGraph editReverted ≠ nextGraph { editReverted with store := Store.empty } := by
  have hgitless : NoGit textEngine gitless editReverted := by
    rw [NoGit]
    decide +kernel
  refine ⟨.edit (diedAfter_reached 4) hgitless rfl, by decide +kernel, by decide +kernel, ?_⟩
  intro heq
  have hleft : (nextGraph editReverted).map resolvedFrom =
      some [("src/a.cs".toList, "z".toList), ("src/b.cs".toList, "y".toList)] := by
    decide +kernel
  have hright : (nextGraph { editReverted with store := Store.empty }).map resolvedFrom =
      some [("src/a.cs".toList, "x".toList), ("src/b.cs".toList, "y".toList)] := by
    decide +kernel
  rw [heq, hright] at hleft
  exact absurd hleft (by decide)

end Devscout
