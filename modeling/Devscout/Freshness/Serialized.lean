/-
# Devscout.Freshness.Serialized -- the bracket under the map lock

With the lock a run starts only when every other is finished or dead, so nothing
but the live run writes. What it sampled is then still in place when it publishes,
and the record describes the directory it was renamed into. A query that finds the
record's identities again at its end therefore read the very files of that
publication, and its digest table with them.
-/

import Devscout.Freshness.Interleaving

namespace Devscout

open Lib Lib.Files Lib.Atomic Relation

variable {F : Facts} {E : Engine F} {ident : Supply} {s s' : Sys F}

/-- The map lock: a run starts when no other is live. -/
def serialized : Regime F where
  admits := fun s => ∀ run ∈ s.runs, run.isDone = true
  finds := fun _ _ _ => True

instance (store : Store F) (log : RunLog F) (tag : Look) : Decidable (serialized.finds store log tag) :=
  inferInstanceAs (Decidable True)

/-- What a run sampled and wrote is what the directory holds. -/
structure Holds (store : Store F) (log : RunLog F) : Prop where
  graph : ∀ i, log.sampledGraph = some i → store.graphIdentity = i
  manifest : ∀ i, log.sampledManifest = some i → store.manifestIdentity = i
  table : ∀ t, log.table = some t → store.digests.map Stamped.content = some t

theorem Holds.see {store : Store F} {log : RunLog F} (h : Holds store log) (tag : Look) :
    Holds store (log.see store tag) := by
  cases tag with
  | sampleGraph =>
      refine ⟨fun i hi => ?_, h.manifest, h.table⟩
      cases hlog : log.sampledGraph with
      | some j => exact h.graph i (by simpa [RunLog.see, hlog] using hi)
      | none => simpa [RunLog.see, hlog] using hi
  | sampleManifest =>
      refine ⟨h.graph, fun i hi => ?_, h.table⟩
      cases hlog : log.sampledManifest with
      | some j => exact h.manifest i (by simpa [RunLog.see, hlog] using hi)
      | none => simpa [RunLog.see, hlog] using hi
  | _ => exact ⟨h.graph, h.manifest, h.table⟩

/-- A write within the protocol moves nothing that was sampled. -/
theorem Holds.write {store : Store F} {log : RunLog F} {owner : Option Str} {token : Str}
    {op : WriteOp F} (h : Holds store log) (hop : Obeys owner token log op) :
    Holds (store.apply ident op) (log.note ident store op) := by
  cases op with
  | manifest value =>
      have hnone : log.sampledManifest = none := hop
      exact ⟨h.graph, fun i hi => absurd (hnone.symm.trans hi) nofun, h.table⟩
  | graph graph =>
      have hnone : log.sampledGraph = none := hop
      exact ⟨fun i hi => absurd (hnone.symm.trans hi) nofun, h.manifest, h.table⟩
  | removeDigests =>
      have hnone : log.table = none := hop
      exact ⟨h.graph, h.manifest, fun t ht => absurd (hnone.symm.trans ht) nofun⟩
  | digests table => exact ⟨h.graph, h.manifest, fun t ht => ht⟩
  | transport inputs => cases inputs <;> exact ⟨h.graph, h.manifest, h.table⟩
  | units units => cases units <;> exact ⟨h.graph, h.manifest, h.table⟩
  | crates crates => cases crates <;> exact ⟨h.graph, h.manifest, h.table⟩
  | _ => exact ⟨h.graph, h.manifest, h.table⟩

/-- `st` is the directory as the publication of `r` left it, and the directory now
is what later renames made of it. -/
structure Certifies (ident : Supply) (s : Sys F) (st : Store F) (r : Record) : Prop where
  record : st.record.map Stamped.content = some (.published r)
  artifacts : r.artifacts = ⟨st.graphIdentity, st.manifestIdentity⟩
  graphDated : Dated ident st.renames st.graph
  manifestDated : Dated ident st.renames st.manifest
  renames : st.renames ≤ s.world.store.renames
  graph : Replaced ident st.renames st.graph s.world.store.graph
  manifest : Replaced ident st.renames st.manifest s.world.store.manifest
  table : ∃ t, st.digests.map Stamped.content = some t ∧ t.generation = r.generation ∧ s.Wrote t

theorem Certifies.grows {st : Store F} {r : Record} (h : Certifies ident s st r)
    (hgrows : Grows ident s s') : Certifies ident s' st r where
  record := h.record
  artifacts := h.artifacts
  graphDated := h.graphDated
  manifestDated := h.manifestDated
  renames := h.renames.trans hgrows.renames
  graph := h.graph.trans h.renames hgrows.graph
  manifest := h.manifest.trans h.renames hgrows.manifest
  table := by
    obtain ⟨t, ht, hgen, hwrote⟩ := h.table
    exact ⟨t, ht, hgen, hwrote.grows hgrows⟩

/-- The record in place describes a publication. -/
def Sys.Certified (ident : Supply) (s : Sys F) : Prop :=
  ∀ r, s.world.store.record.map Stamped.content = some (.published r) →
    ∃ st ∈ s.publications, Certifies ident s st r

/-- The state of the system under the lock. -/
structure Locked (ident : Supply) (s : Sys F) : Prop where
  inv : Inv ident s
  alone : s.runs.Pairwise fun run _ => run.isDone = true
  holds : ∀ run ∈ s.runs, run.isDone = false → Holds s.world.store run.log
  certified : s.Certified ident

/-! ## One step -/

theorem Sys.Certified.keep (h : s.Certified ident) (hgrows : Grows ident s s')
    (hrecord : ∀ r, s'.world.store.record.map Stamped.content = some (.published r) →
      s.world.store.record.map Stamped.content = some (.published r)) : s'.Certified ident := by
  intro r hr
  obtain ⟨st, hst, hcert⟩ := h r (hrecord r hr)
  exact ⟨st, hgrows.publications hst, hcert.grows hgrows⟩

/-- Only the last run can be live. -/
theorem last_of_live {pre post : List (RunState F)} {run : RunState F}
    (halone : (pre ++ run :: post).Pairwise fun run _ => run.isDone = true)
    (hlive : run.isDone = false) : post = [] ∧ ∀ r ∈ pre, r.isDone = true := by
  obtain ⟨-, htail, hcross⟩ := List.pairwise_append.mp halone
  refine ⟨?_, fun r hr => hcross r hr run List.mem_cons_self⟩
  cases post with
  | nil => rfl
  | cons next post =>
      have hdone := (List.pairwise_cons.mp htail).1 next List.mem_cons_self
      rw [hlive] at hdone
      cases hdone

/-- When the live run acts, the others stay done. -/
theorem alone_acting {pre post : List (RunState F)} {run : RunState F} (run' : RunState F)
    (halone : (pre ++ run :: post).Pairwise fun run _ => run.isDone = true)
    (hlive : run.isDone = false) :
    (pre ++ run' :: post).Pairwise fun run _ => run.isDone = true := by
  obtain ⟨rfl, hpre⟩ := last_of_live halone hlive
  obtain ⟨hold, -, -⟩ := List.pairwise_append.mp halone
  exact List.pairwise_append.mpr ⟨hold, List.pairwise_singleton _ _, fun r hr _ _ => hpre r hr⟩

theorem holds_acting {pre post : List (RunState F)} {run run' : RunState F} {store : Store F}
    (halone : (pre ++ run :: post).Pairwise fun run _ => run.isDone = true)
    (hlive : run.isDone = false) (h : Holds store run'.log) :
    ∀ r ∈ pre ++ run' :: post, r.isDone = false → Holds store r.log := by
  obtain ⟨rfl, hpre⟩ := last_of_live halone hlive
  intro r hr hr'
  rcases List.mem_append.mp hr with hmem | hmem
  · rw [hpre r hmem] at hr'
    cases hr'
  · rw [List.mem_singleton.mp hmem]
    exact h

/-- A write keeps the record certified: a publication certifies itself. -/
theorem certified_write (hlocked : Locked ident s) {run : RunState F} {op : WriteOp F}
    (hop : Obeys run.wt.owner run.token run.log op) (hholds : Holds s.world.store run.log)
    (hinv' : Inv ident s') (hgrows : Grows ident s s')
    (hworld : s'.world = s.world.apply ident op)
    (hpubs : s'.publications = s.publications ++
      if isPublication op then [s.world.store.apply ident op] else []) : s'.Certified ident := by
  have hkeep : (∀ r, (s.world.store.apply ident op).record.map Stamped.content = some (.published r) →
      s.world.store.record.map Stamped.content = some (.published r)) → s'.Certified ident :=
    fun h => hlocked.certified.keep hgrows fun r hr => h r (by rw [hworld] at hr; exact hr)
  cases op with
  | record file =>
      cases file with
      | published record =>
          obtain ⟨-, hgen, htable, hgraph, hmanifest⟩ := hop
          intro r hr
          rw [hworld] at hr
          obtain rfl : record = r := by simpa [World.apply, Store.apply, Store.fresh] using hr
          refine ⟨_, by rw [hpubs]; exact List.mem_append_right _ List.mem_cons_self, ?_⟩
          obtain ⟨t, ht, htoken⟩ := Option.map_eq_some_iff.mp htable
          have hslot := hholds.table t ht
          obtain ⟨file, hfile, rfl⟩ := Option.map_eq_some_iff.mp hslot
          refine
            { record := rfl
              artifacts := ?_
              graphDated := ?_
              manifestDated := ?_
              renames := by rw [hworld]; exact le_rfl
              graph := by rw [hworld]; exact Replaced.refl _ _ _
              manifest := by rw [hworld]; exact Replaced.refl _ _ _
              table := ⟨file.content, hslot, htoken.trans hgen.symm,
                hinv'.digests file (by rw [hworld]; exact hfile)⟩ }
          · have hg := hholds.graph _ hgraph
            have hm := hholds.manifest _ hmanifest
            exact congrArg₂ Artifacts.mk hg.symm hm.symm
          · have h := hinv'.graphDated
            rw [hworld] at h
            exact h
          · have h := hinv'.manifestDated
            rw [hworld] at h
            exact h
      | marker owner =>
          exact hkeep fun r hr => by cases hr
      | other =>
          exact hkeep fun r hr => by cases hr
  | removeRecord => exact hkeep fun r hr => by cases hr
  | transport inputs => cases inputs <;> exact hkeep fun r hr => hr
  | units units => cases units <;> exact hkeep fun r hr => hr
  | crates crates => cases crates <;> exact hkeep fun r hr => hr
  | _ => exact hkeep fun r hr => hr

theorem locked_step (h : Locked ident s) (hs : SysStep E ident serialized s s') :
    Locked ident s' := by
  have hinv' := inv_step h.inv hs
  have hgrows := step_grows h.inv hs
  cases hs with
  | edit w hstore =>
      refine ⟨hinv', h.alone, fun run hrun hlive => ?_, h.certified.keep hgrows fun r hr => ?_⟩
      · rw [hstore]
        exact h.holds run hrun hlive
      · rw [← hstore]
        exact hr
  | start wt args hfresh hdone =>
      refine ⟨hinv', ?_, fun run hrun hlive => ?_, h.certified.keep hgrows fun _ hr => hr⟩
      · exact List.pairwise_append.mpr
          ⟨h.alone, List.pairwise_singleton _ _, fun run hrun _ _ => hdone run hrun⟩
      · rcases List.mem_append.mp hrun with hold | hnew
        · exact h.holds run hold hlive
        · rw [List.mem_singleton.mp hnew]
          exact ⟨nofun, nofun, nofun⟩
  | look pre post run tag k hruns hprog hfinds =>
      have halone := hruns ▸ h.alone
      have hlive : run.isDone = false := by simp [RunState.isDone, hprog]
      have hholds := h.holds run (hruns ▸ List.mem_append_right _ List.mem_cons_self) hlive
      exact ⟨hinv', alone_acting _ halone hlive, holds_acting halone hlive (hholds.see tag),
        h.certified.keep hgrows fun _ hr => hr⟩
  | write pre post run op p hruns hprog =>
      have halone := hruns ▸ h.alone
      have hlive : run.isDone = false := by simp [RunState.isDone, hprog]
      have hholds := h.holds run (hruns ▸ List.mem_append_right _ List.mem_cons_self) hlive
      have hobeys := h.inv.acting hruns
      rw [RunState.Obeying, hprog] at hobeys
      have hop := (hobeys _ rfl).1
      exact ⟨hinv', alone_acting _ halone hlive, holds_acting halone hlive (hholds.write hop),
        certified_write h hop hholds hinv' hgrows rfl rfl⟩
  | die pre post run hruns =>
      refine ⟨hinv', ?_, fun r hr hlive => ?_, h.certified.keep hgrows fun _ hr => hr⟩
      · obtain ⟨hpre, htail, hcross⟩ := List.pairwise_append.mp (hruns ▸ h.alone)
        obtain ⟨-, hpost⟩ := List.pairwise_cons.mp htail
        refine List.pairwise_append.mpr
          ⟨hpre, List.pairwise_cons.mpr ⟨fun _ _ => rfl, hpost⟩, fun r hr _ _ => ?_⟩
        exact hcross r hr run List.mem_cons_self
      · rcases mem_replaced hr with rfl | hold
        · cases hlive
        · exact h.holds r (hruns ▸ hold) hlive

theorem locked_steps (h : Locked ident s) (hs : ReflTransGen (SysStep E ident serialized) s s') :
    Locked ident s' := by
  induction hs with
  | refl => exact h
  | tail _ hstep ih => exact locked_step ih hstep

theorem locked_init (w : World F) : Locked ident (Sys.init w) where
  inv := inv_init w
  alone := List.Pairwise.nil
  holds := fun _ hrun => absurd hrun List.not_mem_nil
  certified := fun _ hr => absurd hr nofun

/-! ## The bracket -/

/-- **A verdict speaks for one publication.** Under the map lock, whatever runs
start, write and die while a query is open and whatever is edited, a query whose
verdict is fresh or stale answered from the graph and the manifest of the very
directory its record was published into, and compared with that directory's digest
table if with any. -/
theorem query_reads_one_publication {w : World F} (hident : Function.Injective ident)
    (hreach : ReflTransGen (SysStep E ident serialized) (Sys.init w) s)
    {wt : Worktree} {asking : Option Str} {answer : Answer F}
    (hquery : Exec (Sem.watching Look (WriteOp F) Sys.world)
      (ReflTransGen (SysStep E ident serialized)) (query E wt asking) s answer s')
    (hv : answer.finished.validation.state.verified = true) :
    ∃ r, answer.snapshot = .published r ∧ ∃ st ∈ s'.publications,
      st.record.map Stamped.content = some (.published r) ∧
      r.artifacts = ⟨st.graphIdentity, st.manifestIdentity⟩ ∧
      answer.graph = st.graph ∧ answer.manifest = st.manifest ∧
      ∀ table, answer.finished.digests = some table →
        table.generation = r.generation ∧ st.digests.map Stamped.content = some table := by
  have hlocked := locked_steps (locked_init w) hreach
  obtain ⟨r, hsnapshot, s₁, s₂, s₃, s₄, s₅, s₆, h₁, h₂, h₃, h₄, h₅, h₆, h₇, hrecord, hgraph,
    hmanifest, htable, hgraph', hmanifest'⟩ :=
    exec_query (fun _ => ReflTransGen.refl) (fun _ _ _ => ReflTransGen.trans) hquery hv
  have hl₁ := locked_steps hlocked h₁
  obtain ⟨st, hst, hcert⟩ := hl₁.certified r (content_of_readRecord hrecord)
  have hl₂ := locked_steps hl₁ h₂
  have hl₃ := locked_steps hl₂ h₃
  have hl₄ := locked_steps hl₃ h₄
  have hl₅ := locked_steps hl₄ h₅
  have hl₆ := locked_steps hl₅ h₆
  have g₂ := (inv_steps hl₁.inv h₂).2
  have g₃ := (inv_steps hl₂.inv h₃).2
  have g₄ := (inv_steps hl₃.inv h₄).2
  have g₅ := (inv_steps hl₄.inv h₅).2
  have g₆ := (inv_steps hl₅.inv h₆).2
  have g₇ := (inv_steps hl₆.inv h₇).2
  have c₂ := hcert.grows g₂
  have c₃ := c₂.grows g₃
  rw [hcert.artifacts] at hgraph' hmanifest'
  have hanswerGraph : s₂.world.store.graph = st.graph :=
    (Replaced.between hident hcert.graphDated c₂.renames c₂.graph (g₃.trans (g₄.trans g₅)).graph
      hgraph').1
  have hanswerManifest : s₃.world.store.manifest = st.manifest :=
    (Replaced.between hident hcert.manifestDated c₃.renames c₃.manifest
      (g₄.trans (g₅.trans g₆)).manifest hmanifest').1
  refine ⟨r, hsnapshot, st, (g₂.trans (g₃.trans (g₄.trans (g₅.trans (g₆.trans g₇))))).publications hst,
    hcert.record, hcert.artifacts, hgraph.symm.trans hanswerGraph,
    hmanifest.symm.trans hanswerManifest, fun table hused => ?_⟩
  obtain ⟨hslot, hgen⟩ := htable table hused
  obtain ⟨t, ht, htgen, hwrote⟩ := (c₃.grows g₄).table
  obtain ⟨file, hfile, rfl⟩ := Option.map_eq_some_iff.mp hslot
  -- the run of that generation wrote one table only
  obtain ⟨run, hrun, htoken, hlog⟩ := hl₄.inv.digests file hfile
  obtain ⟨run', hrun', htoken', hlog'⟩ := hwrote
  obtain rfl := token_unique hl₄.inv.tokens hrun hrun'
    ((htoken.trans hgen).trans (htoken'.trans htgen).symm)
  obtain rfl : file.content = t := Option.some.inj (hlog.symm.trans hlog')
  exact ⟨hgen, ht⟩

/-! ## One run and a query after it -/

/-- The system after one run from beginning to end. -/
def mappedOnce : Sys textFacts :=
  ((Sys.init committedWorld).started textEngine committedWorktree (runArgs "src" "t0")).play
    tickingSupply (List.replicate 50 0)

theorem mappedOnce_reached :
    ReflTransGen (SysStep textEngine tickingSupply serialized) (Sys.init committedWorld) mappedOnce :=
  .head (.start _ committedWorktree (runArgs "src" "t0") List.not_mem_nil
    fun _ hrun => absurd hrun List.not_mem_nil) (play_reaches (by decide +kernel))

def queryOnce : Option (Answer textFacts) :=
  (trace (World.apply tickingSupply) (query textEngine committedWorktree committedWorktree.owner)
    mappedOnce.world).2

theorem queryOnce_answers : queryOnce.isSome = true := by decide +kernel

theorem queryOnce_verified :
    (queryOnce.get queryOnce_answers).finished.validation.state.verified = true := by
  decide +kernel

theorem query_after_one_run :
    ∃ r, (queryOnce.get queryOnce_answers).snapshot = .published r ∧
      ∃ st ∈ mappedOnce.publications,
        st.record.map Stamped.content = some (.published r) ∧
        r.artifacts = ⟨st.graphIdentity, st.manifestIdentity⟩ ∧
        (queryOnce.get queryOnce_answers).graph = st.graph ∧
        (queryOnce.get queryOnce_answers).manifest = st.manifest ∧
        ∀ table, (queryOnce.get queryOnce_answers).finished.digests = some table →
          table.generation = r.generation ∧ st.digests.map Stamped.content = some table :=
  query_reads_one_publication tickingSupply_injective mappedOnce_reached
    (Exec.of_trace (fun _ => .refl) (silent_query textEngine _ _)
      (Option.some_get queryOnce_answers).symm) queryOnce_verified

end Devscout
