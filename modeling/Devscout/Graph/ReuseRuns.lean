/-
# Devscout.Graph.ReuseRuns -- reuse over shared state, crashes and switches

In a Git repository every run first turns the record into a marker, and a record
certifies a run only after that run's index and cache are both written. So whenever
a record certifies, the index its owner reads is covered by the cache; and a run
that finds no record of its own looks up no prior entry and reuses nothing. The
cache is truthful wherever a run dies.
-/

import Devscout.Graph.Reuse
import Devscout.History
import Devscout.Freshness.ScopeAgreement

namespace Devscout

open Lib Lib.Text Lib.Files Lib.Atomic

variable {F : Facts} {E : Engine F} {ident : Supply}

/-! ## The index and the cache -/

/-- Every key of the index `owner` reads has its fragment in the cache. -/
def InSync (owner : Option Str) (s : Store F) : Prop :=
  ∀ rel key, (s.readFragmentsIndex owner).get? rel = some key →
    ∃ fragment, (s.readFragmentsCache owner).get? rel = some ⟨key, fragment⟩

/-- The entries of a cache file that are `owner`'s. -/
def entriesOf {V : Type} (owner : Option Str) (file : Option (OwnerStamped V)) : OrderedMap Str V :=
  match file with
  | none => .empty
  | some file => if file.owner = owner then file.entries else .empty

theorem ownEntries_eq {V : Type} (owner : Option Str) (file : Option (StateFile (OwnerStamped V))) :
    ownEntries owner file = entriesOf owner (file.map Stamped.content) := by
  cases file <;> rfl

theorem readFragmentsIndex_eq (owner : Option Str) (s : Store F) :
    s.readFragmentsIndex owner = entriesOf owner s.graphSide.index :=
  ownEntries_eq owner s.index

theorem readFragmentsCache_eq (owner : Option Str) (s : Store F) :
    s.readFragmentsCache owner = entriesOf owner s.graphSide.cache :=
  ownEntries_eq owner s.cache

theorem InSync.congr {owner : Option Str} {s s' : Store F} (h : InSync owner s)
    (hsame : s'.graphSide = s.graphSide) : InSync owner s' := by
  intro rel key
  rw [readFragmentsIndex_eq, readFragmentsCache_eq, hsame, ← readFragmentsIndex_eq,
    ← readFragmentsCache_eq]
  exact h rel key

/-- The two files one rebuild writes are in sync. -/
theorem inSync_of_written {owner owner' : Option Str} {s : Store F}
    {cache : OrderedMap Str (FragmentCacheEntry F)}
    (hcache : s.graphSide.cache = some ⟨owner, cache⟩)
    (hindex : s.graphSide.index = some ⟨owner, cache.mapValues FragmentCacheEntry.mtime⟩) :
    InSync owner' s := by
  intro rel key hget
  rw [readFragmentsIndex_eq, hindex] at hget
  rw [readFragmentsCache_eq, hcache]
  simp only [entriesOf] at hget ⊢
  split at hget
  · rename_i howner
    rw [OrderedMap.get?_mapValues, Option.map_eq_some_iff] at hget
    obtain ⟨entry, hentry, rfl⟩ := hget
    exact ⟨entry.fragment, by simp [howner, hentry]⟩
  · simp at hget

theorem isReusable_index {graphIndex : OrderedMap Str Int} {prior : Option Value} {rel : Str}
    {key : Int} (hsource : isGraphSource rel = true)
    (h : isReusable graphIndex prior rel key = true) : graphIndex.get? rel = some key := by
  simp only [isReusable, hsource] at h
  split at h
  · simp only [Bool.not_true, Bool.false_or, Bool.and_eq_true, beq_iff_eq] at h
    exact h.2
  · simp at h

theorem covered_of_inSync {wt : Worktree} {w : World F} (h : InSync wt.owner w.store) :
    Covered E wt w :=
  fun rel bytes _ hsource hreuse => h rel (E.cacheKey bytes) (isReusable_index hsource hreuse)

/-- A run without a record of its own reuses nothing. -/
theorem covered_of_not_mine {wt : Worktree} {w : World F} (h : priorMineIn wt w = false) :
    Covered E wt w := by
  intro rel bytes _ _ hreuse
  simp [priorIndexIn, h, isReusable] at hreuse

/-! ## The cache stays truthful -/

/-- The entries of a cache file were all extracted from bytes of their keys. -/
def TruthfulEntries (E : Engine F) (entries : OrderedMap Str (FragmentCacheEntry F)) : Prop :=
  ∀ rel entry, entries.get? rel = some entry →
    ∃ bytes, E.cacheKey bytes = entry.mtime ∧ fragmentOf E rel bytes = some entry.fragment

theorem truthfulCache_iff {s : Store F} :
    TruthfulCache E s ↔ ∀ c, s.graphSide.cache = some c → TruthfulEntries E c.entries := by
  constructor
  · intro h c hc
    obtain ⟨file, hfile, rfl⟩ := Option.map_eq_some_iff.mp hc
    exact h file hfile
  · intro h file hfile
    exact h file.content (by simp [Store.graphSide, hfile])

theorem TruthfulCache.congr {s s' : Store F} (h : TruthfulCache E s)
    (hsame : s'.graphSide.cache = s.graphSide.cache) : TruthfulCache E s' := by
  rw [truthfulCache_iff, hsame, ← truthfulCache_iff]
  exact h

theorem truthfulEntries_insertAll {es : List (Str × FragmentCacheEntry F)}
    (h : ∀ e ∈ es, ∃ bytes, E.cacheKey bytes = e.2.mtime ∧ fragmentOf E e.1 bytes = some e.2.fragment) :
    TruthfulEntries E (OrderedMap.empty.insertAll es) := by
  intro rel entry hget
  rw [OrderedMap.get?_insertAll, OrderedMap.get?_empty, Option.or_none] at hget
  exact h (rel, entry) (List.mem_reverse.mp (OrderedMap.mem_of_lookup hget))

/-- The only cache file a run writes is one of fresh fragments. -/
theorem Planned.cache_truthful {wt : Worktree} {args : MapArgs} {w : World F} {p : Plan F}
    (h : Planned E wt args w p) (hkey : E.KeyInjective) (htruthful : TruthfulCache E w.store)
    {c : OwnerStamped (FragmentCacheEntry F)} (hc : WriteOp.cache c ∈ graphOps E wt p w) :
    TruthfulEntries E c.entries := by
  simp only [graphOps, rebuildOps] at hc
  split at hc
  · simp only [List.mem_cons, reduceCtorEq, WriteOp.cache.injEq, List.not_mem_nil, or_false,
      false_or] at hc
    rw [hc]
    exact truthfulEntries_insertAll fun e he => h.mergedIn_truthful hkey htruthful he
  · simp at hc

theorem truthful_applyAll {ops : List (WriteOp F)}
    (hops : ∀ c, WriteOp.cache c ∈ ops → TruthfulEntries E c.entries) {g : GraphSide F}
    (hg : ∀ c, g.cache = some c → TruthfulEntries E c.entries) :
    ∀ c, (applyAll GraphSide.apply ops g).cache = some c → TruthfulEntries E c.entries := by
  induction ops generalizing g with
  | nil => exact hg
  | cons op ops ih =>
      refine ih (fun c hc => hops c (List.mem_cons_of_mem _ hc)) fun c hc => ?_
      cases op with
      | cache entries =>
          cases hc
          exact hops _ List.mem_cons_self
      | _ => exact hg c hc

/-- A run leaves a truthful cache wherever it is cut. -/
theorem Planned.truthful_cut {wt : Worktree} {args : MapArgs} {w : World F} {p : Plan F}
    (h : Planned E wt args w p) (hkey : E.KeyInjective) (htruthful : TruthfulCache E w.store)
    (token : Str) (n : Nat) :
    TruthfulCache E
      (applyAll (World.apply ident) ((commitOps E ident wt token p w).take n) w).store := by
  obtain ⟨m, hside, -⟩ := graphSide_cut E ident wt p w token n
  rw [truthfulCache_iff, graphSide_applyAll, hside]
  exact truthful_applyAll (fun c hc => h.cache_truthful hkey htruthful (List.mem_of_mem_take hc))
    (truthfulCache_iff.mp htruthful)

/-! ## What a completed rebuild leaves -/

/-- The six files after all the writes of a rebuild. -/
def rebuiltSide (E : Engine F) (wt : Worktree) (p : Plan F) (w : World F) : GraphSide F where
  graph := some (graphIn E wt p w)
  transport :=
    if anySite E (splitMerged ((mergedIn wt p w).map fun e => (e.1, e.2.fragment))) then
      some p.models.transport else none
  units := p.models.model.map graphUnits
  crates := p.models.crates
  cache := some ⟨wt.owner, OrderedMap.empty.insertAll (mergedIn wt p w)⟩
  index := some ⟨wt.owner, (OrderedMap.empty.insertAll (mergedIn wt p w)).mapValues
    FragmentCacheEntry.mtime⟩

theorem graphSide_rebuilt {wt : Worktree} {p : Plan F} {w : World F} (h : rebuildsIn p w = true)
    (g : GraphSide F) :
    applyAll GraphSide.apply (graphOps E wt p w) g = rebuiltSide E wt p w := by
  rw [graphOps, if_pos h]
  rfl

/-- A completed run leaves the index in sync, if it rebuilt or found it so. -/
theorem inSync_of_complete {wt : Worktree} {p : Plan F} {w : World F} {token : Str} {n : Nat}
    (hcomplete : (commitOps E ident wt token p w).length ≤ n) {owner : Option Str}
    (hkept : rebuildsIn p w = false → InSync owner w.store) :
    InSync owner (applyAll (World.apply ident) ((commitOps E ident wt token p w).take n) w).store := by
  obtain ⟨m, hside, -, -, hlen⟩ :=
    graphSide_cut E ident wt p w token n
  have hafter := (graphSide_applyAll ident ((commitOps E ident wt token p w).take n) w).trans hside
  rw [List.take_of_length_le (hlen hcomplete)] at hafter
  cases hrebuilds : rebuildsIn p w with
  | false =>
      rw [graphOps, hrebuilds] at hafter
      exact (hkept hrebuilds).congr hafter
  | true =>
      rw [graphSide_rebuilt hrebuilds] at hafter
      exact inSync_of_written (congrArg GraphSide.cache hafter) (congrArg GraphSide.index hafter)

/-! ## When a record certifies -/

def isRecordWrite : WriteOp F → Bool
  | .record _ | .removeRecord => true
  | _ => false

theorem readRecord_apply {s : Store F} {op : WriteOp F} (h : isRecordWrite op = false) :
    (s.apply ident op).readRecord = s.readRecord := by
  cases op with
  | record file => cases h
  | removeRecord => cases h
  | transport inputs => cases inputs <;> rfl
  | units units => cases units <;> rfl
  | crates crates => cases crates <;> rfl
  | _ => rfl

theorem readRecord_applyAll {ops : List (WriteOp F)} (h : ∀ op ∈ ops, isRecordWrite op = false)
    (w : World F) :
    (applyAll (World.apply ident) ops w).store.readRecord = w.store.readRecord := by
  induction ops generalizing w with
  | nil => rfl
  | cons op ops ih =>
      obtain ⟨hop, hops⟩ := List.forall_mem_cons.mp h
      rw [applyAll_cons, ih hops]
      exact readRecord_apply hop

/-- Between the marker and the record a run writes neither. -/
theorem middle_not_record {wt : Worktree} {p : Plan F} {w : World F} {token : Str} :
    ∀ op ∈ artifactOps E wt p w ++ [.digests ⟨token, p.digests⟩], isRecordWrite op = false := by
  intro op hop
  simp only [artifactOps, rebuildOps, List.mem_append, List.mem_cons, List.not_mem_nil, or_false] at hop
  rcases hop with (rfl | hop) | rfl
  · rfl
  · split at hop
    · simp only [List.mem_cons, List.not_mem_nil, or_false] at hop
      rcases hop with rfl | rfl | rfl | rfl | rfl | rfl <;> rfl
    · simp at hop
  · rfl

/-- **A record certifies only complete runs.** Past its first write, a run leaves a
certifying record only when it made all of its writes, and then its own. -/
theorem certified_cut {wt : Worktree} {owner : Str} (hgit : wt.owner = some owner) {p : Plan F}
    {w : World F} {token : Str} {n : Nat} {r : Record}
    (h : (applyAll (World.apply ident) ((commitOps E ident wt token p w).take n) w).store.readRecord.certified
      = some r) :
    n = 0 ∨ (commitOps E ident wt token p w).length ≤ n ∧ r.owner = owner := by
  obtain ⟨rec, hrec, hsplit⟩ : ∃ rec : Record, rec.owner = owner ∧
      commitOps E ident wt token p w = .record (.marker owner) ::
        ((artifactOps E wt p w ++ [.digests ⟨token, p.digests⟩]) ++ [.record (.published rec)]) := by
    refine ⟨recordOf owner token p (quietDirty p)
      (applyAll (World.apply ident) (markOps wt.owner ++ artifactOps E wt p w) w).store, rfl, ?_⟩
    simp only [commitOps, markOps, publishOps, hgit, List.cons_append, List.nil_append,
      List.append_assoc]
  rw [hsplit] at h ⊢
  cases n with
  | zero => exact Or.inl rfl
  | succ n =>
      refine Or.inr ?_
      generalize hmid : artifactOps E wt p w ++ [.digests ⟨token, p.digests⟩] = mid at h ⊢
      have hmiddle : ∀ op ∈ mid, isRecordWrite op = false := hmid ▸ middle_not_record
      rcases Nat.lt_or_ge mid.length n with hlt | hge
      · refine ⟨by simp; omega, ?_⟩
        rw [List.take_of_length_le (by simp; omega), applyAll_cons, applyAll_append] at h
        simp only [applyAll_cons, applyAll_nil, World.apply, Store.apply, Store.fresh,
          Store.readRecord] at h
        split at h
        · cases h
          exact hrec
        · cases h
      · -- still marked
        rw [List.take_succ_cons, List.take_append_of_le_length hge, applyAll_cons,
          readRecord_applyAll fun op hop => hmiddle op (List.mem_of_mem_take hop)] at h
        cases h

/-! ## Over a history -/

/-- Runs of worktrees of one repository, each of which may die anywhere. -/
def sharedState : Setting F where
  world := fun _ => True
  run := fun wt _ => wt.owner.isSome = true
  mayDie := true

/-- The cache is truthful, and what a record certifies is in sync. -/
structure ReuseInv (E : Engine F) (s : Store F) : Prop where
  truthful : TruthfulCache E s
  inSync : ∀ r, s.readRecord.certified = some r → InSync (some r.owner) s

theorem reuseInv_empty {s : Store F} (h : s = Store.empty) : ReuseInv E s := by
  subst h
  exact ⟨nofun, nofun⟩

theorem priorIsMine_some {owner : Str} {record : Option Record} :
    priorIsMine (some owner) record = true ↔ ∃ r, record = some r ∧ r.owner = owner := by
  cases record with
  | none => simp [priorIsMine]
  | some r => simp [priorIsMine]

/-- A record of the run's own is one it may trust. -/
theorem ReuseInv.covered {wt : Worktree} {w : World F} (h : ReuseInv E w.store)
    (hgit : wt.owner.isSome = true) : Covered E wt w := by
  cases hmine : priorMineIn wt w with
  | false => exact covered_of_not_mine hmine
  | true =>
      obtain ⟨owner, howner⟩ := Option.isSome_iff_exists.mp hgit
      rw [priorMineIn, howner, priorIsMine_some] at hmine
      obtain ⟨r, hrecord, rfl⟩ := hmine
      exact covered_of_inSync (howner ▸ h.inSync r hrecord)

/-- A run that rebuilds nothing found a record of its own. -/
theorem Planned.mine_of_not_rebuilds {wt : Worktree} {args : MapArgs} {w : World F} {p : Plan F}
    (h : Planned E wt args w p) (hskip : rebuildsIn p w = false) : priorMineIn wt w = true := by
  have hchanged : p.changed = false := (Bool.or_eq_false_iff.mp hskip).1
  rw [h.changed] at hchanged
  simp only [Bool.or_eq_false_iff, Bool.not_eq_false', h.graphTrusted, Bool.and_eq_true] at hchanged
  exact hchanged.1.1.1.1.1.1

theorem ReuseInv.cut {wt : Worktree} {args : MapArgs} {w : World F} {p : Plan F}
    (h : ReuseInv E w.store) (hkey : E.KeyInjective) (hgit : wt.owner.isSome = true)
    (hplanned : Planned E wt args w p) (n : Nat) :
    ReuseInv E
      (applyAll (World.apply ident) ((commitOps E ident wt args.token p w).take n) w).store := by
  refine ⟨hplanned.truthful_cut hkey h.truthful args.token n, fun r hr => ?_⟩
  obtain ⟨owner, howner⟩ := Option.isSome_iff_exists.mp hgit
  rcases certified_cut howner hr with rfl | ⟨hcomplete, hrowner⟩
  · exact h.inSync r hr
  · refine inSync_of_complete hcomplete fun hskip => ?_
    -- the run kept the two files, which its own prior record certified
    have hmine := hplanned.mine_of_not_rebuilds hskip
    rw [priorMineIn, howner, priorIsMine_some] at hmine
    obtain ⟨prior, hprior, rfl⟩ := hmine
    exact hrowner ▸ h.inSync prior hprior

theorem reuseInv_history (hkey : E.KeyInjective) {S : Setting F}
    (hS : ∀ wt args, S.run wt args → wt.owner.isSome = true) {w : World F}
    {last : Option (LastGraph F)} (h : History E ident S w last) : ReuseInv E w.store := by
  refine h.invariant (I := fun w _ => ReuseInv E w.store) ?_ ?_ ?_
  · exact fun w _ hempty => reuseInv_empty hempty
  · exact fun w w' _ hinv _ hstore => hstore ▸ hinv
  · exact fun w _ wt args p n hinv hrun hplanned _ => hinv.cut hkey (hS wt args hrun) hplanned n

/-- The plan of a run that nothing else disturbs. -/
def planOf (E : Engine F) (ident : Supply) (wt : Worktree) (args : MapArgs) (w : World F) :
    Option (Plan F) :=
  (trace (World.apply ident) (planRun E wt args) w).2

/-- **Reuse is sound over shared state.** After any sequence of edits and of runs of
any worktrees of the repository, each cut anywhere, the fragments a run hands to the
resolvers are the fresh extractions of the graph sources it walked, in walk order,
and a graph it writes is resolved from exactly those. -/
theorem reuse_is_fresh_extraction (hkey : E.KeyInjective) {w : World F}
    {last : Option (LastGraph F)} (hw : History E ident sharedState w last) {wt : Worktree}
    (hgit : wt.owner.isSome = true) {args : MapArgs} {p : Plan F}
    (hplan : planOf E ident wt args w = some p) :
    mergedIn wt p w = freshEntries E wt.root w.fs.dir p.files ∧
      ∀ graph, WriteOp.graph graph ∈ (trace (World.apply ident) (mapRepo E wt args) w).1 →
        let m := splitMerged
          ((freshEntries E wt.root w.fs.dir p.files).map fun e => (e.1, e.2.fragment))
        graph = resolveAll E m p.models
          { head := E.gitHead w.fs.dir (w.git wt.root) wt.root
            ts := readTsFor E w.fs.dir wt.root m
            texts := readTexts w.fs.dir wt.root (transportFiles m p.models.transport) } := by
  have hinv := reuseInv_history hkey (fun _ _ hrun => hrun) hw
  have hplanned := planned_of_trace E hplan
  have hmerged := hplanned.mergedIn_eq hkey hinv.truthful (hinv.covered hgit)
  refine ⟨hmerged, fun graph hgraph => ?_⟩
  rw [trace_mapRepo_of_plan E hplan] at hgraph
  rw [(graph_of_mem_commitOps E hgraph).2, graphIn, hmerged]

/-! ## A run that died with its cache written and its index not -/

/-- `/r/src/a.cs` and `/r/src/b.cs`, with their texts. -/
def twoFiles (a b : String) : FileTree :=
  ⟨.sub "r".toList (.sub "src".toList (.file "a.cs".toList a.toUTF8.toList true
    (.file "b.cs".toList b.toUTF8.toList true .nil)) .nil) .nil, by rfl⟩

def linkedWorktree (name : String) : Worktree := ⟨sampleRoot, some name.toList⟩

def commandLine (dir token : String) : MapArgs := ⟨[dir.toList], false, token.toList, .inOrder⟩

/-- One worktree has mapped both files. -/
def bothMapped : World textFacts :=
  crash (World.apply tickingSupply) 10
    (mapRepo textEngine (linkedWorktree "r/.git") (commandLine "src" "t0"))
    (World.ofTree (twoFiles "x" "y"))

/-- One file is edited, and another worktree's run dies with its cache in place and its
index not. -/
def diedBetween : World textFacts :=
  crash (World.apply tickingSupply) 7
    (mapRepo textEngine (linkedWorktree "r/.git/worktrees/b") (commandLine "src" "t1"))
    { bothMapped with fs := twoFiles "x" "z" }

theorem bothMapped_reached :
    ∃ last, History textEngine tickingSupply sharedState bothMapped last :=
  ⟨_, .run 10 (.start trivial rfl) (by rfl) nofun⟩

theorem diedBetween_reached :
    ∃ last, History textEngine tickingSupply sharedState diedBetween last := by
  obtain ⟨last, h⟩ := bothMapped_reached
  exact ⟨_, .run 7 (.edit h trivial rfl) (by rfl) nofun⟩

theorem diedBetween_plans : (planOf textEngine tickingSupply (linkedWorktree "r/.git")
    (commandLine "src" "t2") diedBetween).isSome = true := by
  decide +kernel

theorem reuse_after_died_run :
    let p := (planOf textEngine tickingSupply (linkedWorktree "r/.git") (commandLine "src" "t2")
      diedBetween).get diedBetween_plans
    mergedIn (linkedWorktree "r/.git") p diedBetween =
      freshEntries textEngine sampleRoot diedBetween.fs.dir p.files :=
  (reuse_is_fresh_extraction textEngine_keyInjective diedBetween_reached.choose_spec rfl
    (Option.some_get diedBetween_plans).symm).1

end Devscout
