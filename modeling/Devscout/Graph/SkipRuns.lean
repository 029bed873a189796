/-
# Devscout.Graph.SkipRuns -- the skip decision over a whole history

Along a history of one worktree the graph on disk is always the one its last writer
resolved, and when that run lived to write the fragments index, the index, the cache
and the sidecars are of the same rebuild. A run that finds nothing stale therefore
leaves the graph a rebuild would write, if what no test looks at is unchanged too.
-/

import Devscout.Graph.Skip

namespace Devscout

open Lib Lib.Text Lib.Files Lib.Atomic

variable {F : Facts} {E : Engine F} {ident : Supply}

/-! ## The invariant -/

def GraphSide.empty : GraphSide F := ⟨none, none, none, none, none, none⟩

/-- What the directory owes to the run that last wrote its graph. -/
structure LeftBy (E : Engine F) (wt : Worktree) (g : GraphSide F) (l : LastGraph F) : Prop where
  planned : ∃ args, Planned E wt args l.world l.plan
  truthful : TruthfulCache E l.world.store
  graph : g.graph = some (graphIn E wt l.plan l.world)
  whole : l.whole = true → g = rebuiltSide E wt l.plan l.world

structure GraphInv (E : Engine F) (wt : Worktree) (w : World F) (last : Option (LastGraph F)) :
    Prop where
  truthful : TruthfulCache E w.store
  fresh : last = none → w.store.graphSide = GraphSide.empty
  left : ∀ l, last = some l → LeftBy E wt w.store.graphSide l

/-- A cut of the six writes: none made, the graph made and the index not, or all. -/
theorem graphOps_cut (wt : Worktree) (p : Plan F) (w : World F) (m : Nat) (g : GraphSide F) :
    (applyAll GraphSide.apply ((graphOps E wt p w).take m) g = g ∧
        ((graphOps E wt p w).take m).any isGraphWrite = false) ∨
      (((graphOps E wt p w).take m).any isGraphWrite = true ∧
        (applyAll GraphSide.apply ((graphOps E wt p w).take m) g).graph =
          some (graphIn E wt p w) ∧
        (((graphOps E wt p w).take m).any isIndexWrite = true →
          applyAll GraphSide.apply ((graphOps E wt p w).take m) g = rebuiltSide E wt p w) ∧
        ((graphOps E wt p w).length ≤ m →
          ((graphOps E wt p w).take m).any isIndexWrite = true)) := by
  cases hrebuilds : rebuildsIn p w with
  | false => exact Or.inl (by simp [graphOps, hrebuilds])
  | true =>
      have hops : graphOps E wt p w =
          rebuildOps E wt.owner (mergedIn wt p w) (graphIn E wt p w) p.models := if_pos hrebuilds
      rw [hops]
      rcases m with _ | _ | _ | _ | _ | _ | m
      · exact Or.inl ⟨rfl, rfl⟩
      -- the graph is written first, and its index is the last of the six
      iterate 5 exact Or.inr ⟨rfl, rfl, (absurd · Bool.false_ne_true), (absurd · (by simp [rebuildOps]))⟩
      · rw [List.take_of_length_le (by simp [rebuildOps])]
        exact Or.inr ⟨rfl, rfl, fun _ => rfl, fun _ => rfl⟩

theorem graphInv_history (hkey : E.KeyInjective) {wt : Worktree} {S : Setting F}
    (hS : ∀ wt' args, S.run wt' args → wt' = wt) {w : World F} {last : Option (LastGraph F)}
    (h : History E ident S w last) : GraphInv E wt w last := by
  refine h.invariant (I := GraphInv E wt) ?_ ?_ ?_
  · intro w _ hempty
    refine ⟨?_, fun _ => ?_, fun l hl => absurd hl (Option.some_ne_none l).symm⟩
    · rw [hempty]
      intro file hfile
      cases hfile
    · rw [hempty]
      rfl
  · intro w w' last hinv _ hstore
    exact ⟨hstore ▸ hinv.truthful, fun h => hstore ▸ hinv.fresh h, fun l h => hstore ▸ hinv.left l h⟩
  · intro w last wt' args p n hinv hrun hplanned _
    obtain rfl := hS wt' args hrun
    obtain ⟨m, hside, hgraph, hindex, -⟩ := graphSide_cut E ident wt' p w args.token n
    have hafter :=
      (graphSide_applyAll ident ((commitOps E ident wt' args.token p w).take n) w).trans hside
    rw [hgraph, hindex]
    refine ⟨hplanned.truthful_cut hkey hinv.truthful args.token n, ?_, ?_⟩
    · intro hlast
      rcases graphOps_cut (E := E) wt' p w m w.store.graphSide with ⟨hkept, hnone⟩ | ⟨hwrote, -⟩
      · rw [hnone] at hlast
        rw [hafter, hkept]
        exact hinv.fresh hlast
      · rw [hwrote] at hlast
        cases hlast
    · intro l hl
      rcases graphOps_cut (E := E) wt' p w m w.store.graphSide with
        ⟨hkept, hnone⟩ | ⟨hwrote, hdisk, hwhole, -⟩
      · rw [hnone] at hl
        rw [hafter, hkept]
        exact hinv.left l hl
      · rw [hwrote] at hl
        cases hl
        exact ⟨⟨args, hplanned⟩, hinv.truthful, hafter ▸ hdisk, fun h => hafter ▸ hwhole h⟩

/-- Where no run dies, the last writer of the graph wrote the index too. -/
theorem whole_history {S : Setting F} (hS : S.mayDie = false) {w : World F}
    {last : Option (LastGraph F)} (h : History E ident S w last) :
    ∀ l, last = some l → l.whole = true := by
  refine h.invariant (I := fun _ last => ∀ l, last = some l → l.whole = true) ?_ ?_ ?_
  · exact fun _ _ _ l hl => absurd hl (Option.some_ne_none l).symm
  · exact fun _ _ _ hinv _ _ => hinv
  · intro w last wt args p n hinv _ _ hcomplete l hl
    obtain ⟨m, -, hgraph, hindex, hlen⟩ := graphSide_cut E ident wt p w args.token n
    rw [hgraph, hindex] at hl
    rcases graphOps_cut (E := E) wt p w m w.store.graphSide with ⟨-, hnone⟩ | ⟨hwrote, -, -, hwhole⟩
    · rw [hnone] at hl
      exact hinv l hl
    · rw [hwrote] at hl
      cases hl
      exact hwhole (hlen (hcomplete hS))

/-! ## A run that skips -/

/-- A skipping run wrote none of the six files. -/
theorem graphSide_of_skip {wt : Worktree} {token : Str} {p : Plan F} {w : World F}
    (h : rebuildsIn p w = false) :
    (applyAll (World.apply ident) (commitOps E ident wt token p w) w).store.graphSide =
      w.store.graphSide := by
  obtain ⟨m, hside, -⟩ := graphSide_cut E ident wt p w token (commitOps E ident wt token p w).length
  rw [List.take_length] at hside
  rw [graphSide_applyAll, hside, graphOps, h]
  simp

/-- A run that returned did what its plan says. -/
theorem planned_of_returned {wt : Worktree} {args : MapArgs} {w : World F} {ops : List (WriteOp F)}
    {report : MapReport F} (h : trace (World.apply ident) (mapRepo E wt args) w = (ops, some report)) :
    Planned E wt args w report.plan ∧ ops = commitOps E ident wt args.token report.plan w ∧
      report.outcome = outcomeIn E wt report.plan w := by
  rcases @trace_mapRepo _ E ident wt args w with hnone | ⟨p, hplanned, htrace⟩
  · rw [hnone] at h
    cases h
  · rw [htrace] at h
    cases h
    exact ⟨hplanned, rfl, rfl⟩

theorem rebuildsIn_of_notRebuilt {wt : Worktree} {p : Plan F} {w : World F}
    (h : outcomeIn E wt p w = .notRebuilt) : rebuildsIn p w = false := by
  rw [outcomeIn] at h
  cases hr : rebuildsIn p w with
  | false => rfl
  | true => simp [hr] at h

/-- The graph on disk was resolved from what the run finds now. -/
theorem LeftBy.skip {wt : Worktree} {args : MapArgs} {w : World F} {p : Plan F} {l : LastGraph F}
    (h : LeftBy E wt w.store.graphSide l) (hkey : E.KeyInjective) (hp : Planned E wt args w p)
    (hskip : rebuildsIn p w = false) (hsame : l.whole = true ∧ ListedAlike l p ∨ SameInputs E wt l p w)
    (hunwatched : Unwatched E wt l p w) :
    (graphIn E wt l.plan l.world).SameApartFromHead (freshGraph E wt p w) := by
  have hstale := hp.nothingStale (Bool.or_eq_false_iff.mp hskip).1
  obtain ⟨args₀, hl⟩ := h.planned
  have hinputs : SameInputs E wt l p w := by
    rcases hsame with ⟨hwhole, hlisted⟩ | hsame
    · exact sameInputs_of_nothingStale hkey hl h.truthful hp (h.whole hwhole) hstale hlisted
    · exact hsame
  exact hinputs.graph hkey hl hp hstale.lane hunwatched

/-- A skipping run found a graph. -/
theorem graph_of_skip {p : Plan F} {w : World F} (h : rebuildsIn p w = false) :
    w.store.graphSide ≠ GraphSide.empty := by
  intro hempty
  have hcurrent : w.store.graphIsCurrent = true := by
    simpa using (Bool.or_eq_false_iff.mp h).2
  have hgraph : w.store.graph.map Stamped.content = none := congrArg GraphSide.graph hempty
  rw [Store.graphIsCurrent, Option.map_eq_none_iff.mp hgraph] at hcurrent
  cases hcurrent

/-! ## The skip decision in a Git worktree -/

/-- Completed runs of one worktree, with any edits between them. -/
def completedRuns (wt : Worktree) : Setting F where
  world := fun _ => True
  run := fun wt' _ => wt' = wt
  mayDie := false

/-- The graph a forced rebuild writes is the one of its plan. -/
theorem graph_of_forced {wt : Worktree} {p : Plan F} {w : World F} {ops : List (WriteOp F)}
    {graph : Graph F}
    (h : trace (World.apply ident) (rebuildGraph E wt p.graphFiles p.freshFragments true p.models) w =
      (ops, some (.rebuilt graph))) : graph = graphIn E wt p w := by
  have hforced := @trace_rebuildGraph_bind _ E ident _ wt { p with changed := true } Prog.ret w
  rw [Prog.bind_ret] at hforced
  have hout : (some (outcomeIn E wt { p with changed := true } w) : Option (RebuildOutcome F)) =
      some (.rebuilt graph) := congrArg Prod.snd (hforced.symm.trans h)
  simp only [outcomeIn, rebuildsIn, Bool.true_or, if_true, Option.some.injEq,
    RebuildOutcome.rebuilt.injEq] at hout
  exact hout.symm

/-- **The skip decision.** After any edits and completed runs of one Git worktree, a
run that answers `NotRebuilt` leaves the graph a forced rebuild would write, up to the
recorded head, provided that what no staleness test looks at is as the last rebuild
found it. -/
theorem skipped_graph_is_current (hkey : E.KeyInjective) {wt : Worktree}
    (hgit : wt.owner.isSome = true) {w : World F} {last : Option (LastGraph F)}
    (hw : History E ident (completedRuns wt) w last) {args : MapArgs} {ops : List (WriteOp F)}
    {p : Plan F}
    (hrun : trace (World.apply ident) (mapRepo E wt args) w = (ops, some ⟨p, .notRebuilt⟩))
    (hunwatched : ∀ l, last = some l → ListedAlike l p ∧ Unwatched E wt l p w)
    {forced : List (WriteOp F)} {graph : Graph F}
    (hforced : trace (World.apply ident)
      (rebuildGraph E wt p.graphFiles p.freshFragments true p.models) w =
        (forced, some (.rebuilt graph))) :
    ∃ file, (applyAll (World.apply ident) ops w).store.graph = some file ∧
      file.content.SameApartFromHead graph := by
  obtain ⟨hp, rfl, hout⟩ := planned_of_returned hrun
  have hskip := rebuildsIn_of_notRebuilt hout.symm
  have hinv := graphInv_history hkey (fun _ _ h => h) hw
  have hreuse : ReuseInv E w.store := by
    refine reuseInv_history hkey ?_ hw
    rintro wt' args rfl
    exact hgit
  have hfresh : graph = freshGraph E wt p w := by
    rw [graph_of_forced hforced, graphIn, freshGraph, freshMerged,
      hp.mergedIn_eq hkey hreuse.truthful (hreuse.covered hgit)]
  cases hlast : last with
  | none => exact absurd (hinv.fresh hlast) (graph_of_skip hskip)
  | some l =>
      obtain ⟨hlisted, hkept⟩ := hunwatched l hlast
      have hleft := hinv.left l hlast
      have hsame := hleft.skip hkey hp hskip (Or.inl ⟨whole_history rfl hw l hlast, hlisted⟩) hkept
      have hdisk : (applyAll (World.apply ident) (commitOps E ident wt args.token p w)
          w).store.graphSide.graph = some (graphIn E wt l.plan l.world) := by
        rw [graphSide_of_skip hskip]
        exact hleft.graph
      obtain ⟨file, hfile, hcontent⟩ := Option.map_eq_some_iff.mp hdisk
      exact ⟨file, hfile, by rw [hcontent, hfresh]; exact hsame⟩

/-! ### One edit the tests see, one they do not -/

/-- `/r/src/a.ts` under a `tsconfig.json`. -/
def tsProject (source settings : String) : FileTree :=
  ⟨.sub "r".toList (.sub "src".toList (.file "a.ts".toList source.toUTF8.toList true .nil)
    (.file tsconfigJson settings.toUTF8.toList true .nil)) .nil, by rfl⟩

def onceMapped : World textFacts :=
  crash (World.apply tickingSupply) 10
    (mapRepo textEngine (linkedWorktree "r/.git") (commandLine "src" "t0"))
    (World.ofTree (tsProject "x" "1"))

/-- The run has left a graph. -/
example : onceMapped.store.graph.isSome = true := by decide +kernel

def onceMappedLast : Option (LastGraph textFacts) :=
  lastAfter textEngine tickingSupply (linkedWorktree "r/.git") (commandLine "src" "t0") 10
    (World.ofTree (tsProject "x" "1")) none

theorem onceMapped_reached : History textEngine tickingSupply
    (completedRuns (linkedWorktree "r/.git")) onceMapped onceMappedLast :=
  .run 10 (.start trivial rfl) (by rfl) fun _ => by decide +kernel

/-- The same files, another `tsconfig.json`. -/
def settingsEdited : World textFacts := { onceMapped with fs := tsProject "x" "2" }

/-- The plan of a second run. -/
def secondPlan (w : World textFacts) : Option (Plan textFacts) :=
  planOf textEngine tickingSupply (linkedWorktree "r/.git") (commandLine "src" "t1") w

theorem secondRun_skips {w : World textFacts} {p : Plan textFacts} (hplan : secondPlan w = some p)
    (hskip : rebuildsIn p w = false) :
    trace (World.apply tickingSupply)
        (mapRepo textEngine (linkedWorktree "r/.git") (commandLine "src" "t1")) w =
      (commitOps textEngine tickingSupply (linkedWorktree "r/.git") "t1".toList p w,
        some ⟨p, .notRebuilt⟩) := by
  rw [trace_mapRepo_of_plan textEngine hplan, outcomeIn, hskip]
  rfl

theorem onceMapped_plans : (secondPlan onceMapped).isSome = true := by decide +kernel

theorem onceMappedLast_some : onceMappedLast.isSome = true := by decide +kernel

/-- With nothing edited the second run skips, and the graph is the right one. -/
theorem skipped_after_no_edit :
    let p := (secondPlan onceMapped).get onceMapped_plans
    let ops := commitOps textEngine tickingSupply (linkedWorktree "r/.git") "t1".toList p onceMapped
    ∀ forced graph, trace (World.apply tickingSupply) (rebuildGraph textEngine
        (linkedWorktree "r/.git") p.graphFiles p.freshFragments true p.models) onceMapped =
          (forced, some (.rebuilt graph)) →
      ∃ file, (applyAll (World.apply tickingSupply) ops onceMapped).store.graph = some file ∧
        file.content.SameApartFromHead graph := by
  intro p ops forced graph hforced
  refine skipped_graph_is_current textEngine_keyInjective rfl onceMapped_reached
    (secondRun_skips (Option.some_get onceMapped_plans).symm (by decide +kernel)) ?_ hforced
  intro l hl
  obtain rfl : onceMappedLast.get onceMappedLast_some = l := Option.get_of_eq_some _ hl
  have hfs : (onceMappedLast.get onceMappedLast_some).world.fs = onceMapped.fs := by decide +kernel
  exact ⟨⟨by decide +kernel, by decide +kernel⟩, ⟨by decide +kernel, by rw [hfs]⟩⟩

/-- The settings a graph was resolved with. -/
def resolvedWith (g : Graph textFacts) : Option (Option Bytes) := TextGraph.resolution g.body

theorem settingsEdited_plans : (secondPlan settingsEdited).isSome = true := by decide +kernel

/-- A `tsconfig.json` edited between two runs: the second one skips, and leaves the
graph of the old settings where a rebuild would write that of the new ones. -/
theorem settings_edit_unseen :
    History textEngine tickingSupply (completedRuns (linkedWorktree "r/.git")) settingsEdited
        onceMappedLast ∧
      ∃ (p : Plan textFacts) (ops forced : List (WriteOp textFacts)) (graph : Graph textFacts),
        trace (World.apply tickingSupply)
            (mapRepo textEngine (linkedWorktree "r/.git") (commandLine "src" "t1")) settingsEdited =
          (ops, some ⟨p, .notRebuilt⟩) ∧
        trace (World.apply tickingSupply) (rebuildGraph textEngine (linkedWorktree "r/.git")
            p.graphFiles p.freshFragments true p.models) settingsEdited =
          (forced, some (.rebuilt graph)) ∧
        ¬∃ file, (applyAll (World.apply tickingSupply) ops settingsEdited).store.graph = some file ∧
          file.content.SameApartFromHead graph := by
  refine ⟨.edit onceMapped_reached trivial rfl, ?_⟩
  let p := (secondPlan settingsEdited).get settingsEdited_plans
  refine ⟨p, _, _, graphIn textEngine (linkedWorktree "r/.git") p settingsEdited,
    secondRun_skips (Option.some_get settingsEdited_plans).symm (by decide +kernel), rfl, ?_⟩
  rintro ⟨file, hfile, -, hbody, -⟩
  have hold : ((applyAll (World.apply tickingSupply)
      (commitOps textEngine tickingSupply (linkedWorktree "r/.git") "t1".toList p settingsEdited)
      settingsEdited).store.graph.map fun f => resolvedWith f.content) = some (some (some [0x31])) := by
    decide +kernel
  have hnew : resolvedWith (graphIn textEngine (linkedWorktree "r/.git") p settingsEdited) =
      some (some [0x32]) := by
    decide +kernel
  rw [hfile, Option.map_some, resolvedWith, hbody, ← resolvedWith, hnew] at hold
  cases hold

end Devscout
