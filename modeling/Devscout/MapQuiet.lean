/-
# Devscout.MapQuiet -- a run nothing interferes with

When nothing moves during a run, all its observations are of one world: the plan
is a function of that world, stage by stage, and so is the list of writes that
follows. `Planned` says what each part of the plan is, `commitOps` what is
written and in which order; a run that dies performed a prefix of it.
-/

import Devscout.MapCmd

namespace Devscout

open Lib Lib.Text Lib.Files Lib.Atomic

variable {F : Facts} (E : Engine F) {ident : Supply}

/-! ## The parallel reads -/

theorem lookup_zip_map {α : Type} {order : List Nat} (g : Nat → α) {i : Nat} (hi : i ∈ order) :
    (order.zip (order.map g)).lookup i = some (g i) := by
  induction order with
  | nil => simp at hi
  | cons j order ih =>
      by_cases h : i = j
      · simp [h]
      · have hmem : i ∈ order := by simpa [h] using hi
        simpa [OrderedMap.lookup_cons_ne h] using ih hmem

/-- Whatever order the results came in, they end up in file order. -/
theorem inFileOrder {α : Type} (schedule : Schedule) (n : Nat) (g : Nat → α) :
    ((List.range n).filterMap fun i =>
      ((schedule.order n).zip ((schedule.order n).map g)).lookup i) = (List.range n).map g := by
  have hall : ∀ i ∈ List.range n,
      ((schedule.order n).zip ((schedule.order n).map g)).lookup i = some (g i) :=
    fun i hi => lookup_zip_map g ((schedule.perm n).mem_iff.mpr hi)
  rw [List.filterMap_congr hall, List.filterMap_eq_map']

theorem map_range_getD {α : Type} (files : List Str) (h : Str → α) :
    ((List.range files.length).map fun i => h (files.getD i [])) = files.map h := by
  refine List.ext_getElem (by simp) fun i h₁ h₂ => ?_
  have hi : i < files.length := by simpa using h₂
  simp [hi]

/-- In a quiet run the plan has one entry for each walked file, in walk order,
whatever the order of the reads. -/
theorem trace_readPlan_bind {α : Type} (schedule : Schedule) (root : Root)
    (graphIndex : OrderedMap Str Int) (priorIndex : OrderedMap Str Value) (files : List Str)
    (g : List (PlanEntry F) → MapProg F α) (w : World F) :
    trace (World.apply ident) (readPlan E schedule root graphIndex priorIndex files >>= g) w =
      trace (World.apply ident) (g (files.map fun rel =>
        planEntry E graphIndex priorIndex rel (readFile w.fs.dir (root.join rel)))) w := by
  rw [readPlan, bind_assoc, trace_readEach_bind, Prog.pure_eq, Prog.ret_bind]
  have horder := inFileOrder schedule files.length fun i =>
    planEntry E graphIndex priorIndex (files.getD i []) (readFile w.fs.dir (root.join (files.getD i [])))
  rw [horder, map_range_getD files fun rel =>
    planEntry E graphIndex priorIndex rel (readFile w.fs.dir (root.join rel))]

/-! ## The plan -/

/-- The record a run trusts as the previous one's. -/
def priorRecordIn (w : World F) : Option Record := w.store.readRecord.certified

def priorMineIn (wt : Worktree) (w : World F) : Bool := priorIsMine wt.owner (priorRecordIn w)

/-- What every part of a plan is, when all of it was observed of one world. -/
structure Planned (wt : Worktree) (args : MapArgs) (w : World F) (p : Plan F) : Prop where
  scope : scopeFor (w.registry wt.root)
    (if args.scopeDirs.isEmpty then none else some args.scopeDirs) = .ok p.scope
  pathspecs : p.pathspecs = mapPathspecs p.scope
    (if priorMineIn wt w then ((priorRecordIn w).map fun r => r.configInputs.keys).getD [] else [])
  head0 : p.head0 = E.gitHead w.fs.dir (w.git wt.root) wt.root
  status0 : p.status0 =
    (gitStatusPaths E w.fs.dir (w.git wt.root) wt.root p.pathspecs none).toOption
  ignored : ignoredForScope E w.fs.dir (w.git wt.root) wt.root p.scope = .ok p.ignored
  files : listSourceFiles w.fs.dir wt.root p.scope p.ignored = .ok p.files
  priorEntries : p.priorEntries =
    if priorMineIn wt w then manifestEntries (w.store.manifest.map Stamped.content) else []
  graphIndex : p.graphIndex = w.store.readFragmentsIndex wt.owner
  plan : p.plan = p.files.map fun rel =>
    planEntry E p.graphIndex (OrderedMap.empty.insertAll p.priorEntries) rel
      (readFile w.fs.dir (wt.root.join rel))
  entries : p.entries = mergedEntries p.scope p.priorEntries
    (foldParsed (p.plan.filterMap PlanEntry.parsed)).1 p.plan
  digests : p.digests = OrderedMap.empty.insertAll
    (p.plan.filterMap fun e => e.digest.map fun digest => (e.rel, digest))
  freshFragments : p.freshFragments = (foldParsed (p.plan.filterMap PlanEntry.parsed)).2
  discovered : ∃ modelDigests,
    discoverProjects E w.fs.dir wt.root p.scope p.ignored .empty =
        .ok (p.models.model, modelDigests) ∧
      discoverCrates E w.fs.dir wt.root p.scope p.ignored
          ((p.graphFiles.map GraphFile.rel).filter isRust) modelDigests =
        .ok (p.models.crates, p.configDigests)
  lane : p.models.lane =
    decideLane E w.fs.dir (w.git wt.root) wt.root w.compilerFacts args.noSemantic
  transport : p.models.transport =
    discoverTransport E w.fs.dir wt.root p.models.model p.files
  graphTrusted : p.graphTrusted = (priorMineIn wt w &&
    ((priorRecordIn w).map fun r => decide (r.artifacts.graph = w.store.graphIdentity)).getD true)
  changed : p.changed = (!p.graphTrusted || indexIsStale p.graphIndex p.graphFiles ||
    unitsSidecarDiffers (w.store.units.map Stamped.content) p.models.model ||
    cratesSidecarDiffers (w.store.crates.map Stamped.content) p.models.crates ||
    transportSidecarDiffers (w.store.transport.map Stamped.content) p.models.transport ||
    p.models.lane.forcesRebuild)

/-- The plan of a quiet run is the one its world determines. -/
theorem planned_of_trace {wt : Worktree} {args : MapArgs} {w : World F} {p : Plan F}
    (h : (trace (World.apply ident) (planRun E wt args) w).2 = some p) :
    Planned E wt args w p := by
  unfold planRun at h
  obtain ⟨scope, hscope, h⟩ := trace_readOr_bind_eq_some.mp h
  simp only [trace_read_bind] at h
  obtain ⟨ignored, hignored, h⟩ := trace_readOr_bind_eq_some.mp h
  obtain ⟨files, hfiles, h⟩ := trace_readOr_bind_eq_some.mp h
  simp only [trace_read_bind, trace_readPlan_bind] at h
  obtain ⟨⟨model, modelDigests⟩, hmodel, h⟩ := trace_readOr_bind_eq_some.mp h
  simp only [trace_read_bind] at h
  obtain ⟨⟨crates, configDigests⟩, hcrates, h⟩ := trace_readOr_bind_eq_some.mp h
  simp only [trace_read_bind, Prog.pure_eq, trace_ret, Option.some.injEq] at h
  subst h
  exact
    { scope := hscope
      pathspecs := rfl
      head0 := rfl
      status0 := rfl
      ignored := hignored
      files := hfiles
      priorEntries := rfl
      graphIndex := rfl
      plan := rfl
      entries := rfl
      digests := rfl
      freshFragments := rfl
      discovered := ⟨modelDigests, hmodel, hcrates⟩
      lane := rfl
      transport := rfl
      graphTrusted := rfl
      changed := rfl }

/-- The two looks a record's artifact identities come from. -/
def isSample : Look → Bool
  | .sampleGraph => true
  | .sampleManifest => true
  | _ => false

/-- Nothing is written before the whole plan is made, and nothing sampled. -/
theorem within_planRun (wt : Worktree) (args : MapArgs) :
    (planRun E wt args).Within (isSample · = false) (fun _ => False) := by
  refine Prog.Within.bind (Prog.within_readOr (by rfl) _) fun scope => ?_
  iterate 3 refine Prog.Within.bind (Prog.within_read (by rfl) _) fun _ => ?_
  refine Prog.Within.bind (Prog.within_readOr (by rfl) _) fun ignored => ?_
  refine Prog.Within.bind (Prog.within_readOr (by rfl) _) fun files => ?_
  iterate 2 refine Prog.Within.bind (Prog.within_read (by rfl) _) fun _ => ?_
  refine Prog.Within.bind ?_ fun plan => ?_
  · exact Prog.Within.bind (Prog.within_readEach (by rfl) _ _) fun _ => trivial
  refine Prog.Within.bind (Prog.within_readOr (by rfl) _) fun model => ?_
  refine Prog.Within.bind (Prog.within_read (by rfl) _) fun lane => ?_
  refine Prog.Within.bind (Prog.within_readOr (by rfl) _) fun crates => ?_
  iterate 5 refine Prog.Within.bind (Prog.within_read (by rfl) _) fun _ => ?_
  trivial

theorem silent_planRun (wt : Worktree) (args : MapArgs) : (planRun E wt args).Silent :=
  (within_planRun E wt args).mono (fun _ _ => trivial) fun _ h => h

/-! ## The writes -/

/-- The writes that take the certification away. -/
def markOps (owner : Option Str) : List (WriteOp F) :=
  match owner with
  | some owner => [.record (.marker owner)]
  | none => [.removeRecord, .removeDigests]

/-- The fragments a run hands to the resolvers. -/
def mergedIn (wt : Worktree) (p : Plan F) (w : World F) : List (Str × FragmentCacheEntry F) :=
  mergeFragments (w.store.readFragmentsCache wt.owner) p.freshFragments p.graphFiles

/-- The graph a rebuild resolves. -/
def graphIn (wt : Worktree) (p : Plan F) (w : World F) : Graph F :=
  let m := splitMerged ((mergedIn wt p w).map fun e => (e.1, e.2.fragment))
  resolveAll E m p.models
    { head := E.gitHead w.fs.dir (w.git wt.root) wt.root
      ts := readTsFor E w.fs.dir wt.root m
      texts := readTexts w.fs.dir wt.root (transportFiles m p.models.transport) }

def rebuildsIn (p : Plan F) (w : World F) : Bool := p.changed || !w.store.graphIsCurrent

def outcomeIn (wt : Worktree) (p : Plan F) (w : World F) : RebuildOutcome F :=
  if rebuildsIn p w then .rebuilt (graphIn E wt p w) else .notRebuilt

/-- What a run writes between the marker and the digest table. -/
def artifactOps (wt : Worktree) (p : Plan F) (w : World F) : List (WriteOp F) :=
  .manifest (manifestValue p.head0 p.scope p.entries) ::
    if rebuildsIn p w then rebuildOps E wt.owner (mergedIn wt p w) (graphIn E wt p w) p.models
    else []

/-- The record a run publishes over the store it has written. -/
def recordOf (owner token : Str) (p : Plan F) (dirty : Option (List Str)) (s : Store F) : Record :=
  { owner := owner
    generation := token
    indexedHead := p.head0
    scope := p.scope
    fileCount := p.entries.length
    dirtyAtMap := dirty
    configInputs := p.configDigests
    artifacts := ⟨s.graphIdentity, s.manifestIdentity⟩ }

/-- In a quiet run both status reads answer the same. -/
def quietDirty (p : Plan F) : Option (List Str) := dirtyAtMap p.scope p.status0 p.status0

def publishOps (owner : Option Str) (token : Str) (p : Plan F) (s : Store F) : List (WriteOp F) :=
  match owner with
  | none => []
  | some owner =>
      [.digests ⟨token, p.digests⟩, .record (.published (recordOf owner token p (quietDirty p) s))]

/-- Everything a quiet run writes, in order. -/
def commitOps (ident : Supply) (wt : Worktree) (token : Str) (p : Plan F) (w : World F) :
    List (WriteOp F) :=
  let ops := markOps wt.owner ++ artifactOps E wt p w
  ops ++ publishOps wt.owner token p (applyAll (World.apply ident) ops w).store

theorem applyAll_world (ops : List (WriteOp F)) (w : World F) :
    applyAll (World.apply ident) ops w =
      { w with store := applyAll (fun op s => Store.apply ident s op) ops w.store } := by
  induction ops generalizing w with
  | nil => rfl
  | cons op ops ih => exact ih _

theorem trace_writeAll_bind {α : Type} (ops : List (WriteOp F)) (g : Unit → MapProg F α)
    (w : World F) :
    trace (World.apply ident) (writeAll ops >>= g) w =
      (ops ++ (trace (World.apply ident) (g ()) (applyAll (World.apply ident) ops w)).1,
        (trace (World.apply ident) (g ()) (applyAll (World.apply ident) ops w)).2) := by
  induction ops generalizing w with
  | nil => rfl
  | cons op ops ih =>
      change trace _ (Prog.put op (writeAll ops >>= g)) w = _
      rw [trace_put, ih]
      rfl

theorem trace_markInProgress_bind {α : Type} (owner : Option Str) (g : Unit → MapProg F α)
    (w : World F) :
    trace (World.apply ident) (markInProgress owner >>= g) w =
      (markOps owner ++
          (trace (World.apply ident) (g ()) (applyAll (World.apply ident) (markOps owner) w)).1,
        (trace (World.apply ident) (g ()) (applyAll (World.apply ident) (markOps owner) w)).2) := by
  cases owner <;> rfl

/-- The rebuild of a quiet run writes the graph of the world it started in. -/
theorem trace_rebuildGraph_bind {α : Type} (wt : Worktree) (p : Plan F)
    (g : RebuildOutcome F → MapProg F α) (w : World F) :
    let ops := if rebuildsIn p w then
      rebuildOps E wt.owner (mergedIn wt p w) (graphIn E wt p w) p.models else []
    trace (World.apply ident)
        (rebuildGraph E wt p.graphFiles p.freshFragments p.changed p.models >>= g) w =
      (ops ++ (trace (World.apply ident) (g (outcomeIn E wt p w))
          (applyAll (World.apply ident) ops w)).1,
        (trace (World.apply ident) (g (outcomeIn E wt p w))
          (applyAll (World.apply ident) ops w)).2) := by
  have hnow : trace (World.apply ident) (rebuildNow E wt p.graphFiles p.freshFragments p.models >>= g) w =
      (rebuildOps E wt.owner (mergedIn wt p w) (graphIn E wt p w) p.models ++
          (trace (World.apply ident) (g (.rebuilt (graphIn E wt p w)))
            (applyAll (World.apply ident)
              (rebuildOps E wt.owner (mergedIn wt p w) (graphIn E wt p w) p.models) w)).1,
        (trace (World.apply ident) (g (.rebuilt (graphIn E wt p w)))
          (applyAll (World.apply ident)
            (rebuildOps E wt.owner (mergedIn wt p w) (graphIn E wt p w) p.models) w)).2) := by
    simp only [rebuildNow, bind_assoc, trace_read_bind, Prog.pure_eq, Prog.ret_bind,
      trace_writeAll_bind]
    rfl
  cases hchanged : p.changed
  · cases hcurrent : w.store.graphIsCurrent
    · have hr : rebuildsIn p w = true := by simp [rebuildsIn, hcurrent]
      simpa [rebuildGraph, hr, outcomeIn, hcurrent, -bind_pure_comp] using hnow
    · have hr : rebuildsIn p w = false := by simp [rebuildsIn, hcurrent, hchanged]
      simp [rebuildGraph, hr, outcomeIn, hcurrent]
  · have hr : rebuildsIn p w = true := by simp [rebuildsIn, hchanged]
    simpa [rebuildGraph, hr, outcomeIn] using hnow

/-- **The writes of a quiet run**: from its plan on, it writes exactly `commitOps`
and reports the outcome its world determines. -/
theorem trace_commitRun {wt : Worktree} {args : MapArgs} {w : World F} {p : Plan F}
    (hplanned : Planned E wt args w p) :
    trace (World.apply ident) (commitRun E wt args p) w =
      (commitOps E ident wt args.token p w, some ⟨p, outcomeIn E wt p w⟩) := by
  -- neither the marker nor the manifest is anything the rebuild looks at
  have hkept : ∀ w' : World F, w' = World.apply ident
      (.manifest (manifestValue p.head0 p.scope p.entries))
        (applyAll (World.apply ident) (markOps wt.owner) w) →
      rebuildsIn p w' = rebuildsIn p w ∧ mergedIn wt p w' = mergedIn wt p w ∧
        graphIn E wt p w' = graphIn E wt p w := by
    rintro w' rfl
    cases wt.owner <;> exact ⟨rfl, rfl, rfl⟩
  obtain ⟨hrebuilds, hmerged, hgraph⟩ := hkept _ rfl
  rw [commitRun, trace_markInProgress_bind, trace_write_bind, trace_rebuildGraph_bind,
    trace_read_bind]
  have hstatus : ∀ w' : World F, w'.fs = w.fs → w'.git = w.git →
      (gitStatusPaths E w'.fs.dir (w'.git wt.root) wt.root p.pathspecs none).toOption =
        p.status0 := by
    intro w' hfs hgit
    rw [hplanned.status0, hfs, hgit]
  rw [hstatus]
  · simp only [outcomeIn, hrebuilds, hmerged, hgraph]
    cases howner : wt.owner with
    | none => simp [commitOps, artifactOps, publishOps, howner, markOps]
    | some owner =>
        simp only [commitOps, artifactOps, publishOps, howner, publish, recordOf, quietDirty,
          markOps, trace_write_bind, Prog.pure_eq, applyAll_cons, applyAll_nil, List.cons_append,
          List.nil_append]
        rfl
  · rw [applyAll_world]
    cases wt.owner <;> rfl
  · rw [applyAll_world]
    cases wt.owner <;> rfl

/-- A quiet run whose observations succeed makes its plan and writes it out. -/
theorem trace_mapRepo_of_plan {wt : Worktree} {args : MapArgs} {w : World F} {p : Plan F}
    (hplan : (trace (World.apply ident) (planRun E wt args) w).2 = some p) :
    trace (World.apply ident) (mapRepo E wt args) w =
      (commitOps E ident wt args.token p w, some ⟨p, outcomeIn E wt p w⟩) := by
  rw [mapRepo, trace_bind, (silent_planRun E wt args).trace_fst w,
    (silent_planRun E wt args).exec_eq w, hplan]
  simp [trace_commitRun E (planned_of_trace E hplan)]

/-- One whose observations do not writes nothing. -/
theorem trace_mapRepo_of_no_plan {wt : Worktree} {args : MapArgs} {w : World F}
    (hplan : (trace (World.apply ident) (planRun E wt args) w).2 = none) :
    trace (World.apply ident) (mapRepo E wt args) w = ([], none) := by
  rw [mapRepo, trace_bind, (silent_planRun E wt args).trace_fst w, hplan]

/-- A whole quiet run: it made the plan of its world, or it wrote nothing. -/
theorem trace_mapRepo (wt : Worktree) (args : MapArgs) (w : World F) :
    ((trace (World.apply ident) (mapRepo E wt args) w) = ([], none)) ∨
      ∃ p, Planned E wt args w p ∧
        trace (World.apply ident) (mapRepo E wt args) w =
          (commitOps E ident wt args.token p w, some ⟨p, outcomeIn E wt p w⟩) := by
  cases hplan : (trace (World.apply ident) (planRun E wt args) w).2 with
  | none => exact Or.inl (trace_mapRepo_of_no_plan E hplan)
  | some p => exact Or.inr ⟨p, planned_of_trace E hplan, trace_mapRepo_of_plan E hplan⟩

end Devscout
