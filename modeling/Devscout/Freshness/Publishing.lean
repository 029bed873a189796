/-
# Devscout.Freshness.Publishing -- what a run owes the directory it publishes into

A run that is alone at the state directory, as the map lock makes it, knows what it
publishes over: while it plans nothing moves, its first write takes the published
record away, and from then on every file is its own or the one it began with. The
manifest it publishes is its own. The graph and the fragments cache are both its own,
or both those of its prior publication, whose graph it compared with the certified
identity before it left them alone.

The record comes last: nothing is written while one is in place, and nothing after
one.
-/

import Devscout.Freshness.Interleaving

namespace Devscout

open Lib Lib.Files Lib.Atomic

variable {F : Facts} (E : Engine F) {ident : Supply}

/-- The record file holds a published record. -/
def Store.IsPublished (s : Store F) : Prop :=
  ∃ r, s.record.map Stamped.content = some (.published r)

/-- A fragments cache as a rename installed it. -/
abbrev CacheFile (F : Facts) := StateFile (OwnerStamped (FragmentCacheEntry F))

/-- A run's state: the world, its log, and the cache file it installed. -/
structure Tracked (F : Facts) where
  world : World F
  log : RunLog F
  cache : Option (CacheFile F)

/-- The cache file a run has installed once it has written `op`. -/
def noteCache (ident : Supply) (store : Store F) (cache : Option (CacheFile F)) :
    WriteOp F → Option (CacheFile F)
  | .cache entries => store.fresh ident entries
  | _ => cache

def Tracked.sem (ident : Supply) : Sem (Tracked F) (World F) Look (WriteOp F) where
  view := Tracked.world
  see := fun tag s => { s with log := s.log.see s.world.store tag }
  apply := fun op s => ⟨s.world.apply ident op, s.log.note ident s.world.store op,
    noteCache ident s.world.store s.cache op⟩

/-- Nothing but the run writes to the directory. -/
structure Tracked.Alone (s s' : Tracked F) : Prop where
  store : s'.world.store = s.world.store
  log : s'.log = s.log
  cache : s'.cache = s.cache

/-- Writes to the record file. -/
def isRecordOp : WriteOp F → Bool
  | .record _ => true
  | .removeRecord => true
  | _ => false

/-! ## What stands behind a publication -/

/-- The graph and the cache in the directory are both the run's own, or both those it
began with beside a record of its owner that certifies that graph. -/
inductive Made (began : Store F) (owner : Str) (log : RunLog F) (cache : Option (CacheFile F))
    (store : Store F) : Prop
  | installed (hgraph : log.graph.isSome = true ∧ store.graph = log.graph)
      (hcache : cache.isSome = true ∧ store.cache = cache)
  | verified (hlog : log.graph = none ∧ log.verified = some store.graphIdentity)
      (hgraph : store.graph = began.graph) (hcache : store.cache = began.cache)
      (prior : Record) (hprior : began.readRecord = .published prior)
      (howner : prior.owner = owner) (hcertified : prior.artifacts.graph = began.graphIdentity)

/-- What a run owes at each write: no published record is in place, and where it
publishes, the manifest is its own and the graph and the cache are made or verified. -/
structure Owes (began : Store F) (s : Tracked F) (op : WriteOp F) : Prop where
  unpublished : isRecordOp op = true ∨ ¬s.world.store.IsPublished
  manifest : isPublication op = true →
    s.log.manifest.isSome = true ∧ s.world.store.manifest = s.log.manifest
  made : ∀ r, op = .record (.published r) → Made began r.owner s.log s.cache s.world.store

/-- A run under the lock, doing what it owes. -/
def Alone (ident : Supply) (began : Store F) {α : Type} (Q : α → Tracked F → Prop) (p : MapProg F α)
    (s : Tracked F) : Prop :=
  Safe (Tracked.sem ident) Tracked.Alone (Owes began) Q p s

/-! ## While it plans -/

/-- The directory is as the run began with it, and nothing is installed. -/
structure Untouched (began : Store F) (s : Tracked F) : Prop where
  store : s.world.store = began
  graph : s.log.graph = none
  cache : s.cache = none
  verified : ∀ i, s.log.verified = some i → i = began.graphIdentity

variable {began : Store F}

theorem Untouched.env {s s' : Tracked F} (h : Untouched began s) (hs : s.Alone s') :
    Untouched began s' :=
  ⟨hs.store.trans h.store, by rw [hs.log]; exact h.graph, hs.cache.trans h.cache,
    by rw [hs.log]; exact h.verified⟩

theorem Untouched.see (ident : Supply) (tag : Look) {s : Tracked F} (h : Untouched began s) :
    Untouched began ((Tracked.sem ident).see tag s) := by
  refine ⟨h.store, ?_, h.cache, fun i hi => ?_⟩
  · show (s.log.see s.world.store tag).graph = none
    cases tag <;> exact h.graph
  · cases tag with
    | graphOnDisk =>
        cases hlog : s.log.verified with
        | some j =>
            have hij : j = i := by simpa [Tracked.sem, RunLog.see, hlog] using hi
            exact hij ▸ h.verified j hlog
        | none =>
            have hij : s.world.store.graphIdentity = i := by
              simpa [Tracked.sem, RunLog.see, hlog] using hi
            rw [← hij, h.store]
    | _ => exact h.verified i hi

/-- What a plan that changes nothing rests on. -/
structure Ready (began : Store F) (wt : Worktree) (plan : Plan F) (s : Tracked F) : Prop
    extends Untouched began s where
  compared : s.log.verified = some began.graphIdentity
  trusted : plan.changed = false → ∀ owner, wt.owner = some owner →
    ∃ prior, began.readRecord = .published prior ∧ prior.owner = owner ∧
      prior.artifacts.graph = began.graphIdentity

/-- A trusted graph is the one the owner's prior record certifies. -/
theorem prior_of_trusted {wt : Worktree} {owner : Str} (howner : wt.owner = some owner)
    (h : (priorIsMine wt.owner began.readRecord.certified &&
      (began.readRecord.certified.map fun r =>
        decide (r.artifacts.graph = began.graphIdentity)).getD true) = true) :
    ∃ prior, began.readRecord = .published prior ∧ prior.owner = owner ∧
      prior.artifacts.graph = began.graphIdentity := by
  rw [howner] at h
  cases hrecord : began.readRecord with
  | published prior =>
      simp only [hrecord, RecordState.certified, priorIsMine, Option.map_some, Option.getD_some,
        Bool.and_eq_true, beq_iff_eq, decide_eq_true_eq] at h
      exact ⟨prior, rfl, h.1, h.2⟩
  | _ => simp [hrecord, RecordState.certified, priorIsMine] at h

theorem planRun_alone (wt : Worktree) (args : MapArgs) {s : Tracked F} (hs : Untouched began s) :
    Alone ident began (Ready began wt) (planRun E wt args) s := by
  have henv : ∀ s s' : Tracked F, Untouched began s → s.Alone s' → Untouched began s' :=
    fun _ _ h hs => h.env hs
  have hsee : ∀ tag s, Untouched began s → Untouched began ((Tracked.sem ident).see tag s) :=
    fun tag _ h => h.see ident tag
  refine safe_readOr_keep henv hsee hs fun scope s hs => ?_
  -- the prior record is the one the directory began with
  intro s₁ h₁
  have hprior : (s₁.world.store.readRecord.certified) = began.readRecord.certified := by
    rw [(hs.env h₁).store]
  have hs₁ := (hs.env h₁).see ident .record
  refine safe_read_keep henv hsee hs₁ fun head0 s hs => ?_
  refine safe_read_keep henv hsee hs fun status0 s hs => ?_
  refine safe_readOr_keep henv hsee hs fun ignored s hs => ?_
  refine safe_readOr_keep henv hsee hs fun files s hs => ?_
  refine safe_read_keep henv hsee hs fun priorManifest s hs => ?_
  refine safe_read_keep henv hsee hs fun graphIndex s hs => ?_
  have hplan : ∀ {α : Type} {p : MapProg F α} {s : Tracked F},
      p.Within (fun _ => True) (fun _ => False) → Untouched began s →
        Alone ident began (fun _ => Untouched began) p s :=
    fun hp hs => hp.safe henv (fun tag _ _ h => hsee tag _ h) (fun _ _ h => h.elim) hs
  refine Safe.bind (fun _ => ⟨rfl, rfl, rfl⟩) ((hplan ?_ hs).mono fun plan s hs => ?_)
  · exact Prog.Within.bind (Prog.within_readEach trivial _ _) fun _ => trivial
  refine safe_readOr_keep henv hsee hs fun model s hs => ?_
  refine safe_read_keep henv hsee hs fun lane s hs => ?_
  refine safe_readOr_keep henv hsee hs fun crates s hs => ?_
  -- the comparison with the certified identity, kept in the log
  intro s₂ h₂
  have hs₂ := (hs.env h₂).see ident .graphOnDisk
  have hdisk : s₂.world.store.graphIdentity = began.graphIdentity := by rw [(hs.env h₂).store]
  have hcompared : ((Tracked.sem ident).see .graphOnDisk s₂).log.verified =
      some began.graphIdentity := by
    show s₂.log.verified.or (some s₂.world.store.graphIdentity) = _
    cases hlog : s₂.log.verified with
    | some i => rw [(hs.env h₂).verified i hlog, Option.some_or]
    | none => rw [Option.none_or, hdisk]
  have henv' : ∀ s s' : Tracked F,
      Untouched began s ∧ s.log.verified = some began.graphIdentity → s.Alone s' →
        Untouched began s' ∧ s'.log.verified = some began.graphIdentity :=
    fun _ _ h hs => ⟨h.1.env hs, by rw [hs.log]; exact h.2⟩
  have hsee' : ∀ tag s, Untouched began s ∧ s.log.verified = some began.graphIdentity →
      Untouched began ((Tracked.sem ident).see tag s) ∧
        ((Tracked.sem ident).see tag s).log.verified = some began.graphIdentity := by
    intro tag s h
    exact ⟨h.1.see ident tag, (RunLog.extends_see s.world.store s.log tag).verified _ h.2⟩
  refine safe_read_keep henv' hsee' ⟨hs₂, hcompared⟩ fun transport s hs => ?_
  refine safe_read_keep henv' hsee' hs fun unitsDiffer s hs => ?_
  refine safe_read_keep henv' hsee' hs fun cratesDiffer s hs => ?_
  refine safe_read_keep henv' hsee' hs fun transportDiffers s hs => ?_
  intro s₃ h₃
  refine ⟨(henv' _ _ hs h₃).1, (henv' _ _ hs h₃).2, fun hunchanged owner howner => ?_⟩
  refine prior_of_trusted howner ?_
  simp only [Bool.or_eq_false_iff, Bool.not_eq_false'] at hunchanged
  rw [← hprior, ← hdisk]
  exact hunchanged.1.1.1.1.1

/-! ## While it writes -/

/-- Between the marker and the record: which of the three artifacts are the run's own
by now; the other ones are those it began with. -/
structure Phase (began : Store F) (ownManifest ownGraph ownCache : Bool) (s : Tracked F) : Prop where
  unpublished : ¬s.world.store.IsPublished
  compared : s.log.verified = some began.graphIdentity
  manifest : ownManifest = true →
    s.log.manifest.isSome = true ∧ s.world.store.manifest = s.log.manifest
  graph : if ownGraph then s.log.graph.isSome = true ∧ s.world.store.graph = s.log.graph
    else s.log.graph = none ∧ s.world.store.graph = began.graph
  cache : if ownCache then s.cache.isSome = true ∧ s.world.store.cache = s.cache
    else s.world.store.cache = began.cache

/-- Writes that touch neither the record nor one of the three artifacts. -/
def isSide : WriteOp F → Bool
  | .removeDigests => true
  | .digests _ => true
  | .transport _ => true
  | .units _ => true
  | .crates _ => true
  | .index _ => true
  | _ => false

theorem unpublished_apply (ident : Supply) {store : Store F} {op : WriteOp F} (hop : isPublication op = false)
    (h : isRecordOp op = true ∨ ¬store.IsPublished) : ¬(store.apply ident op).IsPublished := by
  rintro ⟨r, hr⟩
  cases op with
  | record file =>
      cases file with
      | published record => cases hop
      | marker owner => cases hr
      | other => cases hr
  | removeRecord => cases hr
  | transport inputs => cases inputs <;> exact h.resolve_left nofun ⟨r, hr⟩
  | units units => cases units <;> exact h.resolve_left nofun ⟨r, hr⟩
  | crates crates => cases crates <;> exact h.resolve_left nofun ⟨r, hr⟩
  | _ => exact h.resolve_left nofun ⟨r, hr⟩

section Phases

variable {m g c : Bool} {s s' : Tracked F}

theorem Phase.env (h : Phase began m g c s) (hs : s.Alone s') : Phase began m g c s' := by
  obtain ⟨hstore, hlog, hcache⟩ := hs
  exact ⟨by rw [hstore]; exact h.unpublished, by rw [hlog]; exact h.compared,
    by rw [hstore, hlog]; exact h.manifest, by rw [hstore, hlog]; exact h.graph,
    by rw [hstore, hcache]; exact h.cache⟩

theorem Phase.see (ident : Supply) (tag : Look) (h : Phase began m g c s) :
    Phase began m g c ((Tracked.sem ident).see tag s) := by
  have hmanifest : (s.log.see s.world.store tag).manifest = s.log.manifest := by cases tag <;> rfl
  have hgraph : (s.log.see s.world.store tag).graph = s.log.graph := by cases tag <;> rfl
  refine ⟨h.unpublished, (RunLog.extends_see s.world.store s.log tag).verified _ h.compared, ?_, ?_,
    h.cache⟩
  · show m = true → (s.log.see s.world.store tag).manifest.isSome = true ∧
      s.world.store.manifest = (s.log.see s.world.store tag).manifest
    rw [hmanifest]
    exact h.manifest
  · show if g = true then (s.log.see s.world.store tag).graph.isSome = true ∧
        s.world.store.graph = (s.log.see s.world.store tag).graph
      else (s.log.see s.world.store tag).graph = none ∧ s.world.store.graph = began.graph
    rw [hgraph]
    exact h.graph

/-- What a write other than a publication owes under the marker. -/
theorem Phase.owes (h : Phase began m g c s) {op : WriteOp F} (hop : isPublication op = false) :
    Owes began s op where
  unpublished := Or.inr h.unpublished
  manifest := fun hpub => by
    rw [hop] at hpub
    cases hpub
  made := fun r hr => by
    rw [hr] at hop
    cases hop

theorem Phase.side {op : WriteOp F} (hop : isSide op = true) (h : Phase began m g c s) :
    Phase began m g c ((Tracked.sem ident).apply op s) := by
  have hun : ¬(s.world.store.apply ident op).IsPublished :=
    unpublished_apply ident (by cases op <;> first | rfl | cases hop) (Or.inr h.unpublished)
  cases op with
  | transport inputs => cases inputs <;> exact ⟨hun, h.compared, h.manifest, h.graph, h.cache⟩
  | units units => cases units <;> exact ⟨hun, h.compared, h.manifest, h.graph, h.cache⟩
  | crates crates => cases crates <;> exact ⟨hun, h.compared, h.manifest, h.graph, h.cache⟩
  | digests table => exact ⟨hun, h.compared, h.manifest, h.graph, h.cache⟩
  | removeDigests => exact ⟨hun, h.compared, h.manifest, h.graph, h.cache⟩
  | index entries => exact ⟨hun, h.compared, h.manifest, h.graph, h.cache⟩
  | _ => cases hop

theorem Phase.installManifest (h : Phase began m g c s) (value : Value) :
    Phase began true g c ((Tracked.sem ident).apply (.manifest value) s) :=
  ⟨unpublished_apply ident rfl (Or.inr h.unpublished), h.compared, fun _ => ⟨rfl, rfl⟩, h.graph, h.cache⟩

theorem Phase.installGraph (h : Phase began m g c s) (graph : Graph F) :
    Phase began m true c ((Tracked.sem ident).apply (.graph graph) s) :=
  ⟨unpublished_apply ident rfl (Or.inr h.unpublished), h.compared, h.manifest, ⟨rfl, rfl⟩, h.cache⟩

theorem Phase.installCache (h : Phase began m g c s) (entries : OwnerStamped (FragmentCacheEntry F)) :
    Phase began m g true ((Tracked.sem ident).apply (.cache entries) s) :=
  ⟨unpublished_apply ident rfl (Or.inr h.unpublished), h.compared, h.manifest, h.graph, ⟨rfl, rfl⟩⟩

/-- One write, and the rest from the phase it leads to. -/
theorem Phase.put {m' g' c' : Bool} {α : Type} {Q : α → Tracked F → Prop} {op : WriteOp F}
    {p : MapProg F α} (h : Phase began m g c s) (hop : isPublication op = false)
    (hnext : ∀ s, Phase began m g c s → Phase began m' g' c' ((Tracked.sem ident).apply op s))
    (hrest : ∀ s, Phase began m' g' c' s → Alone ident began Q p s) :
    Alone ident began Q (.put op p) s :=
  fun _ hs => ⟨(h.env hs).owes hop, hrest _ (hnext _ (h.env hs))⟩

end Phases

/-- The marker takes the published record away before anything else moves. -/
theorem markInProgress_alone (owner : Option Str) {s : Tracked F} (h : Untouched began s)
    (hcompared : s.log.verified = some began.graphIdentity) :
    Alone ident began (fun _ => Phase began false false false) (markInProgress owner) s := by
  have hmark : ∀ {s : Tracked F} {op : WriteOp F}, Untouched began s →
      s.log.verified = some began.graphIdentity → isRecordOp op = true → isPublication op = false →
        Phase began false false false ((Tracked.sem ident).apply op s) := by
    intro s op h hcompared hrecord hpub
    have hun : ¬(s.world.store.apply ident op).IsPublished :=
      unpublished_apply ident hpub (Or.inl hrecord)
    have hgraph : s.world.store.graph = began.graph := congrArg Store.graph h.store
    have hcache : s.world.store.cache = began.cache := congrArg Store.cache h.store
    cases op with
    | record file => exact ⟨hun, hcompared, nofun, ⟨h.graph, hgraph⟩, hcache⟩
    | removeRecord => exact ⟨hun, hcompared, nofun, ⟨h.graph, hgraph⟩, hcache⟩
    | _ => cases hrecord
  have howes : ∀ {s : Tracked F} {op : WriteOp F}, isRecordOp op = true → isPublication op = false →
      Owes began s op := by
    intro s op hrecord hpub
    refine ⟨Or.inl hrecord, fun h => ?_, fun r hr => ?_⟩
    · rw [hpub] at h
      cases h
    · rw [hr] at hpub
      cases hpub
  cases owner with
  | some owner =>
      intro s' hs
      refine ⟨howes rfl rfl, fun s'' hs' => Phase.env ?_ hs'⟩
      exact hmark (h.env hs) (by rw [hs.log]; exact hcompared) rfl rfl
  | none =>
      intro s' hs
      refine ⟨howes rfl rfl, ?_⟩
      have hphase := @hmark _ .removeRecord (h.env hs)
        (by rw [hs.log]; exact hcompared) rfl rfl
      exact hphase.put rfl (fun _ h => h.side rfl) fun _ h _ hs => h.env hs

theorem rebuildNow_alone (wt : Worktree) (graphFiles : List GraphFile)
    (fresh : OrderedMap Str (AnyFragment F)) (models : Models F) {s : Tracked F}
    (h : Phase began true false false s) :
    Alone ident began (fun _ => Phase began true true true)
      (rebuildNow E wt graphFiles fresh models) s := by
  have henv : ∀ s s' : Tracked F, Phase began true false false s → s.Alone s' →
      Phase began true false false s' := fun _ _ h hs => h.env hs
  have hsee : ∀ tag s, Phase began true false false s →
      Phase began true false false ((Tracked.sem ident).see tag s) := fun tag _ h => h.see ident tag
  refine safe_read_keep henv hsee h fun cache s h => ?_
  refine safe_read_keep henv hsee h fun ts s h => ?_
  refine safe_read_keep henv hsee h fun head s h => ?_
  refine safe_read_keep henv hsee h fun texts s h => ?_
  -- graph, three sidecars, cache, index
  refine h.put rfl (fun _ h => h.installGraph _) fun s h => ?_
  refine h.put rfl (fun _ h => h.side rfl) fun s h => ?_
  refine h.put rfl (fun _ h => h.side rfl) fun s h => ?_
  refine h.put rfl (fun _ h => h.side rfl) fun s h => ?_
  refine h.put rfl (fun _ h => h.installCache _) fun s h => ?_
  refine h.put rfl (fun _ h => h.side rfl) fun s h => ?_
  exact fun _ hs => h.env hs

/-- After the rebuild the graph and the cache are both the run's own, or neither is,
and then nothing had changed. -/
theorem rebuildGraph_alone (wt : Worktree) (graphFiles : List GraphFile)
    (fresh : OrderedMap Str (AnyFragment F)) (changed : Bool) (models : Models F) {s : Tracked F}
    (h : Phase began true false false s) :
    Alone ident began
      (fun _ s => Phase began true true true s ∨ changed = false ∧ Phase began true false false s)
      (rebuildGraph E wt graphFiles fresh changed models) s := by
  have hnow : ∀ {s : Tracked F}, Phase began true false false s → Alone ident began
      (fun _ s => Phase began true true true s ∨ changed = false ∧ Phase began true false false s)
      (rebuildNow E wt graphFiles fresh models) s :=
    fun h => (rebuildNow_alone E wt graphFiles fresh models h).mono fun _ _ h => Or.inl h
  unfold rebuildGraph
  split
  · exact hnow h
  · rename_i hunchanged
    refine safe_read_keep (fun _ _ h hs => Phase.env h hs) (fun tag _ h => Phase.see ident tag h) h
      fun current s h => ?_
    split
    · exact fun s' hs => Or.inr ⟨by simpa using hunchanged, h.env hs⟩
    · exact hnow h

/-- **A run alone at the directory does what it owes.** -/
theorem mapRepo_alone (wt : Worktree) (args : MapArgs) {s : Tracked F} (hs : Untouched began s) :
    Alone ident began (fun _ _ => True) (mapRepo E wt args) s := by
  have hrefl : ∀ s : Tracked F, s.Alone s := fun _ => ⟨rfl, rfl, rfl⟩
  refine Safe.bind hrefl ((planRun_alone E wt args hs).mono fun plan s hready => ?_)
  have htrusted := hready.trusted
  refine Safe.bind hrefl
    ((markInProgress_alone wt.owner hready.toUntouched hready.compared).mono fun _ s h => ?_)
  refine h.put rfl (fun _ h => h.installManifest _) fun s h => ?_
  change Alone ident began _ (rebuildGraph E wt _ _ _ _ >>= _) s
  refine Safe.bind hrefl ((rebuildGraph_alone E wt _ _ _ _ h).mono fun outcome s h => ?_)
  -- the second status read moves nothing
  intro s₁ h₁
  have hstatus : ∀ {g c : Bool}, Phase began true g c s →
      Phase began true g c ((Tracked.sem ident).see .status2 s₁) :=
    fun h => (h.env h₁).see ident .status2
  cases howner : wt.owner with
  | none => exact fun _ _ => trivial
  | some owner =>
      -- the table, the two samples, the record
      have hpublish : ∀ {g c : Bool} {s : Tracked F} (dirty : Option (List Str)),
          Phase began true g c s →
          (∀ {s : Tracked F}, Phase began true g c s →
            Made began owner s.log s.cache s.world.store) →
          Alone ident began (fun _ _ => True)
            (do
              Prog.write (.digests ⟨args.token, plan.digests⟩)
              publish owner args.token plan dirty
              pure (⟨plan, outcome⟩ : MapReport F)) s := by
        intro g c s dirty h hmade
        refine h.put rfl (fun _ h => h.side rfl) fun s h => ?_
        intro s₂ h₂ s₃ h₃ s₄ h₄
        have hend := (((h.env h₂).see ident .sampleGraph).env h₃).see ident .sampleManifest
          |>.env h₄
        refine ⟨⟨Or.inl rfl, fun _ => hend.manifest rfl, fun r hr => ?_⟩, fun _ _ => trivial⟩
        cases hr
        exact hmade hend
      rcases h with h | ⟨hunchanged, h⟩
      · exact hpublish _ (hstatus h) fun h => .installed h.graph h.cache
      · obtain ⟨prior, hprior, howned, hcertified⟩ := htrusted hunchanged owner howner
        refine hpublish _ (hstatus h) fun {s} h => ?_
        have hident : s.world.store.graphIdentity = began.graphIdentity :=
          congrArg (Option.map Stamped.ident) h.graph.2
        exact .verified ⟨h.graph.1, hident ▸ h.compared⟩ h.graph.2 h.cache prior hprior howned
          hcertified

/-- **The record is the last write of a run.** -/
theorem closing_mapRepo (wt : Worktree) (args : MapArgs) :
    (mapRepo E wt args).Closing (isPublication · = true) := by
  have hearly : ∀ {α : Type} {p : MapProg F α}, p.Within (isSample · = false) (isEarly · = true) →
      p.Within (fun _ => True) (fun op => ¬isPublication op = true) := by
    intro α p hp
    refine hp.mono (fun _ _ => trivial) fun op hop => ?_
    cases op with
    | record file => cases file <;> first | exact Bool.false_ne_true | cases hop
    | _ => exact Bool.false_ne_true
  refine Prog.Closing.bind ((within_planRun E wt args).mono (fun _ _ => trivial) fun _ h => h.elim)
    fun plan => ?_
  refine Prog.Closing.bind (hearly (within_markInProgress _)) fun _ => ?_
  refine ⟨nofun, ?_⟩
  change (rebuildGraph E wt _ _ _ _ >>= _).Closing _
  refine Prog.Closing.bind (hearly (within_rebuildGraph E wt _ _ _ _)) fun outcome => ?_
  intro w
  cases wt.owner with
  | none => trivial
  | some owner => exact ⟨nofun, fun _ _ => ⟨fun _ => ⟨_, rfl⟩, trivial⟩⟩

end Devscout
