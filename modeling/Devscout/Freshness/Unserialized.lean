/-
# Devscout.Freshness.Unserialized -- the bracket without the map lock

When the lock call fails a run goes on unserialized, and the marker and the
identities are all that bounds a reader. They bound it to what the record names,
and the record names what its run sampled: two files in place at two moments of
the publication, whoever installed them. The verdict rests on one run exactly as
far as each run finds its own files when it samples.
-/

import Devscout.Freshness.Interleaving

namespace Devscout

open Lib Lib.Files Lib.Atomic Relation

variable {F : Facts} {E : Engine F} {ident : Supply} {s s' : Sys F}

/-- No lock: a run starts at any time. -/
def unserialized : Regime F where
  admits := fun _ => True
  finds := fun _ _ _ => True

/-- A run that samples the manifest finds the identity of the file it installed; one
that samples the graph finds that of the file it installed or, having installed none,
the one it verified. -/
def SamplesOwn (store : Store F) (log : RunLog F) : Look → Prop
  | .sampleManifest =>
      log.manifest.isSome = true ∧ store.manifestIdentity = log.manifest.map Stamped.ident
  | .sampleGraph =>
      (log.graph.isSome = true ∧ store.graphIdentity = log.graph.map Stamped.ident) ∨
        (log.graph.isNone = true ∧ log.verified = some store.graphIdentity)
  | _ => True

instance (store : Store F) (log : RunLog F) (tag : Look) : Decidable (SamplesOwn store log tag) := by
  cases tag <;> simp only [SamplesOwn] <;> exact inferInstance

/-- No lock, and every run samples its own files. -/
def samplingOwn : Regime F where
  admits := fun _ => True
  finds := SamplesOwn

/-- One run stands behind an answer: it installed the manifest, it installed the graph
or verified it unchanged, and it wrote the digest table, if one was used. -/
structure RunState.Behind (run : RunState F) (answer : Answer F) : Prop where
  manifest : answer.manifest.isSome = true ∧ run.log.manifest = answer.manifest
  graph : (answer.graph.isSome = true ∧ run.log.graph = answer.graph) ∨
    (run.log.graph.isNone = true ∧ run.log.verified = some (answer.graph.map Stamped.ident))
  table : ∀ table, answer.finished.digests = some table → run.log.table = some table

/-- A file was in a slot at some moment, and the slot now is what later renames made
of it. -/
def Since {α : Type} (ident : Supply) (slot : Store F → Option (StateFile α)) (s : Sys F)
    (file : Option (StateFile α)) : Prop :=
  ∃ n, n ≤ s.world.store.renames ∧ Dated ident n file ∧ Replaced ident n file (slot s.world.store)

theorem Since.graph {g : Option (StateFile (Graph F))} (h : Since ident Store.graph s g)
    (hgrows : Grows ident s s') : Since ident Store.graph s' g := by
  obtain ⟨n, hn, hdated, hreplaced⟩ := h
  exact ⟨n, hn.trans hgrows.renames, hdated, hreplaced.trans hn hgrows.graph⟩

theorem Since.manifest {m : Option (StateFile Value)} (h : Since ident Store.manifest s m)
    (hgrows : Grows ident s s') : Since ident Store.manifest s' m := by
  obtain ⟨n, hn, hdated, hreplaced⟩ := h
  exact ⟨n, hn.trans hgrows.renames, hdated, hreplaced.trans hn hgrows.manifest⟩

/-- What a run installed was in place, and what it sampled it had installed or
verified. -/
structure Sampled (ident : Supply) (s : Sys F) (log : RunLog F) : Prop where
  installedManifest : log.manifest.isSome = true → Since ident Store.manifest s log.manifest
  installedGraph : log.graph.isSome = true → Since ident Store.graph s log.graph
  manifest : ∀ i, log.sampledManifest = some i →
    log.manifest.isSome = true ∧ log.manifest.map Stamped.ident = i
  graph : ∀ i, log.sampledGraph = some i → ∃ g, g.map Stamped.ident = i ∧
    ((g.isSome = true ∧ log.graph = g) ∨ (log.graph.isNone = true ∧ log.verified = some i)) ∧
    Since ident Store.graph s g

theorem Sampled.empty (ident : Supply) (s : Sys F) : Sampled ident s RunLog.empty :=
  ⟨nofun, nofun, nofun, nofun⟩

/-- Later renames change none of it. -/
theorem Sampled.grows {log : RunLog F} (h : Sampled ident s log) (hgrows : Grows ident s s') :
    Sampled ident s' log where
  installedManifest := fun hsome => (h.installedManifest hsome).manifest hgrows
  installedGraph := fun hsome => (h.installedGraph hsome).graph hgrows
  manifest := h.manifest
  graph := fun i hi => by
    obtain ⟨g, hident, hmade, hsince⟩ := h.graph i hi
    exact ⟨g, hident, hmade, hsince.graph hgrows⟩

/-- A look keeps the samples honest when it finds the run's own files. -/
theorem Sampled.see (hinv : Inv ident s) {log : RunLog F} (h : Sampled ident s log) {tag : Look}
    (hfinds : SamplesOwn s.world.store log tag) :
    Sampled ident s (log.see s.world.store tag) := by
  cases tag with
  | graphOnDisk =>
      refine ⟨h.installedManifest, h.installedGraph, h.manifest, fun i hi => ?_⟩
      obtain ⟨g, hident, hmade, hsince⟩ := h.graph i hi
      refine ⟨g, hident, hmade.imp_right fun hv => ⟨hv.1, ?_⟩, hsince⟩
      simp [RunLog.see, hv.2]
  | sampleGraph =>
      refine ⟨h.installedManifest, h.installedGraph, h.manifest, fun i hi => ?_⟩
      cases hlog : log.sampledGraph with
      | some j =>
          obtain rfl : j = i := by simpa [RunLog.see, hlog] using hi
          exact h.graph j hlog
      | none =>
          obtain rfl : s.world.store.graphIdentity = i := by simpa [RunLog.see, hlog] using hi
          rcases hfinds with ⟨hsome, heq⟩ | hverified
          · exact ⟨log.graph, heq.symm, Or.inl ⟨hsome, rfl⟩, h.installedGraph hsome⟩
          · exact ⟨s.world.store.graph, rfl, Or.inr hverified, _, le_rfl, hinv.graphDated,
              Replaced.refl _ _ _⟩
  | sampleManifest =>
      refine ⟨h.installedManifest, h.installedGraph, fun i hi => ?_, h.graph⟩
      cases hlog : log.sampledManifest with
      | some j =>
          obtain rfl : j = i := by simpa [RunLog.see, hlog] using hi
          exact h.manifest j hlog
      | none =>
          obtain rfl : s.world.store.manifestIdentity = i := by simpa [RunLog.see, hlog] using hi
          exact ⟨hfinds.1, hfinds.2.symm⟩
  | _ => exact ⟨h.installedManifest, h.installedGraph, h.manifest, h.graph⟩

/-- A write within the protocol puts the run's own file in place. -/
theorem Sampled.write (hinv' : Inv ident s') {log : RunLog F} {owner : Option Str} {token : Str}
    {op : WriteOp F} (h : Sampled ident s log) (hop : Obeys owner token log op)
    (hgrows : Grows ident s s') (hworld : s'.world = s.world.apply ident op) :
    Sampled ident s' (log.note ident s.world.store op) := by
  have hold := h.grows hgrows
  cases op with
  | manifest value =>
      have hslot : s'.world.store.manifest = s.world.store.fresh ident value := by rw [hworld]; rfl
      have hnew : Since ident Store.manifest s' (s.world.store.fresh ident value) :=
        ⟨_, le_rfl, hslot ▸ hinv'.manifestDated, Or.inl hslot⟩
      refine ⟨fun _ => hnew, hold.installedGraph, fun i hi => ?_, hold.graph⟩
      have hnone : log.sampledManifest = none := hop
      exact absurd (hnone.symm.trans hi) nofun
  | graph graph =>
      have hslot : s'.world.store.graph = s.world.store.fresh ident graph := by rw [hworld]; rfl
      have hnew : Since ident Store.graph s' (s.world.store.fresh ident graph) :=
        ⟨_, le_rfl, hslot ▸ hinv'.graphDated, Or.inl hslot⟩
      refine ⟨hold.installedManifest, fun _ => hnew, hold.manifest, fun i hi => ?_⟩
      have hnone : log.sampledGraph = none := hop
      exact absurd (hnone.symm.trans hi) nofun
  | _ => exact ⟨hold.installedManifest, hold.installedGraph, hold.manifest, hold.graph⟩

/-- The system while every run samples its own files. -/
structure Own (ident : Supply) (s : Sys F) : Prop where
  inv : Inv ident s
  sampled : ∀ run ∈ s.runs, Sampled ident s run.log
  record : ∀ r, s.world.store.record.map Stamped.content = some (.published r) →
    ∃ run ∈ s.runs, run.token = r.generation ∧ run.log.sampledGraph = some r.artifacts.graph ∧
      run.log.sampledManifest = some r.artifacts.manifest

theorem own_step (h : Own ident s) (hs : SysStep E ident samplingOwn s s') : Own ident s' := by
  have hinv' := inv_step h.inv hs
  have hgrows := step_grows h.inv hs
  have hold : ∀ r, s.world.store.record.map Stamped.content = some (.published r) →
      ∃ run ∈ s'.runs, run.token = r.generation ∧ run.log.sampledGraph = some r.artifacts.graph ∧
        run.log.sampledManifest = some r.artifacts.manifest := by
    intro r hr
    obtain ⟨run, hrun, htoken, hg, hm⟩ := h.record r hr
    obtain ⟨run', hrun', htoken', hlog⟩ := hgrows.runs run hrun
    exact ⟨run', hrun', htoken'.trans htoken, (hlog.sampledGraph _ hg).1,
      (hlog.sampledManifest _ hm).1⟩
  have hkept : ∀ run ∈ s.runs, Sampled ident s' run.log := fun run hrun =>
    (h.sampled run hrun).grows hgrows
  cases hs with
  | edit w hstore =>
      refine ⟨hinv', hkept, fun r hr => hold r ?_⟩
      rw [← hstore]
      exact hr
  | start wt args hfresh hadmits =>
      refine ⟨hinv', fun run hrun => ?_, hold⟩
      rcases List.mem_append.mp hrun with hmem | hnew
      · exact hkept run hmem
      · rw [List.mem_singleton.mp hnew]
        exact Sampled.empty ident _
  | look pre post run tag k hruns hprog hfinds =>
      have hmem : run ∈ s.runs := hruns ▸ List.mem_append_right _ List.mem_cons_self
      refine ⟨hinv', fun r hr => ?_, hold⟩
      rcases mem_replaced hr with rfl | hother
      · exact ((h.sampled run hmem).see h.inv hfinds).grows hgrows
      · exact hkept r (hruns ▸ hother)
  | write pre post run op p hruns hprog =>
      have hmem : run ∈ s.runs := hruns ▸ List.mem_append_right _ List.mem_cons_self
      have hobeys := h.inv.acting hruns
      rw [RunState.Obeying, hprog] at hobeys
      have hop := (hobeys _ rfl).1
      refine ⟨hinv', fun r hr => ?_, fun r hr => ?_⟩
      · rcases mem_replaced hr with rfl | hother
        · exact (h.sampled run hmem).write hinv' hop hgrows rfl
        · exact hkept r (hruns ▸ hother)
      · cases op with
        | record file =>
            cases file with
            | published record =>
                obtain rfl : record = r := by simpa [World.apply, Store.apply, Store.fresh] using hr
                exact ⟨_, List.mem_append_right _ List.mem_cons_self, hop.2.1.symm, hop.2.2.2⟩
            | marker owner => cases hr
            | other => cases hr
        | removeRecord => cases hr
        | transport inputs => cases inputs <;> exact hold r hr
        | units units => cases units <;> exact hold r hr
        | crates crates => cases crates <;> exact hold r hr
        | _ => exact hold r hr
  | die pre post run hruns =>
      refine ⟨hinv', fun r hr => ?_, hold⟩
      rcases mem_replaced hr with rfl | hmem
      · exact hkept run (hruns ▸ List.mem_append_right _ List.mem_cons_self)
      · exact hkept r (hruns ▸ hmem)

theorem own_steps (h : Own ident s) (hs : ReflTransGen (SysStep E ident samplingOwn) s s') :
    Own ident s' := by
  induction hs with
  | refl => exact h
  | tail _ hstep ih => exact own_step ih hstep

theorem own_init (w : World F) : Own ident (Sys.init w) where
  inv := inv_init w
  sampled := fun _ hrun => absurd hrun List.not_mem_nil
  record := fun _ hr => absurd hr nofun

/-- **Without the lock**, as long as every run finds its own files when it samples
them, a verdict rests on one run: the one whose generation the record carries
installed the manifest, installed or verified the graph, and wrote the digest table
the query compared with. -/
theorem verdict_rests_on_one_run {w : World F} (hident : Function.Injective ident)
    (hreach : ReflTransGen (SysStep E ident samplingOwn) (Sys.init w) s)
    {wt : Worktree} {asking : Option Str} {answer : Answer F}
    (hquery : Exec (Sem.watching Look (WriteOp F) Sys.world)
      (ReflTransGen (SysStep E ident samplingOwn)) (query E wt asking) s answer s')
    (hv : answer.finished.validation.state.verified = true) :
    ∃ r, answer.snapshot = .published r ∧
      ∃ run ∈ s'.runs, run.token = r.generation ∧ run.Behind answer := by
  have hown := own_steps (own_init w) hreach
  obtain ⟨r, hsnapshot, s₁, s₂, s₃, s₄, s₅, s₆, h₁, h₂, h₃, h₄, h₅, h₆, h₇, hrecord, hgraph,
    hmanifest, htable, hgraph', hmanifest'⟩ :=
    exec_query (fun _ => ReflTransGen.refl) (fun _ _ _ => ReflTransGen.trans) hquery hv
  have ho₁ := own_steps hown h₁
  have ho₂ := own_steps ho₁ h₂
  have ho₃ := own_steps ho₂ h₃
  have ho₄ := own_steps ho₃ h₄
  have ho₅ := own_steps ho₄ h₅
  have ho₆ := own_steps ho₅ h₆
  have g₂ := (inv_steps ho₁.inv h₂).2
  have g₃ := (inv_steps ho₂.inv h₃).2
  have g₄ := (inv_steps ho₃.inv h₄).2
  have g₅ := (inv_steps ho₄.inv h₅).2
  have g₆ := (inv_steps ho₅.inv h₆).2
  have g₇ := (inv_steps ho₆.inv h₇).2
  obtain ⟨run, hrun, htoken, hsg, hsm⟩ := ho₁.record r (content_of_readRecord hrecord)
  have hsampled := ho₁.sampled run hrun
  obtain ⟨hsome, hmident⟩ := hsampled.manifest _ hsm
  obtain ⟨g, hgident, hmade, hsince⟩ := hsampled.graph _ hsg
  -- the two files the run sampled are the two the query opened
  obtain ⟨n, hn, hdated, hreplaced⟩ := (hsince.graph g₂)
  have hopenedGraph : s₂.world.store.graph = g :=
    (Replaced.between hident hdated hn hreplaced (g₃.trans (g₄.trans g₅)).graph
      (hgraph'.trans hgident.symm)).1
  obtain ⟨m, hm, hmdated, hmreplaced⟩ :=
    (hsampled.installedManifest hsome).manifest (g₂.trans g₃)
  have hopenedManifest : s₃.world.store.manifest = run.log.manifest :=
    (Replaced.between hident hmdated hm hmreplaced (g₄.trans (g₅.trans g₆)).manifest
      (hmanifest'.trans hmident.symm)).1
  have htail := g₅.trans (g₆.trans g₇)
  obtain ⟨run', hrun', htoken', hlog⟩ := (g₂.trans (g₃.trans (g₄.trans htail))).runs run hrun
  refine ⟨r, hsnapshot, run', hrun', htoken'.trans htoken, ?_, ?_, fun table hused => ?_⟩
  · rw [← hmanifest, hopenedManifest, (hlog.sampledManifest _ hsm).2]
    exact ⟨hsome, rfl⟩
  · rw [← hgraph, hopenedGraph, (hlog.sampledGraph _ hsg).2, hgident]
    exact hmade.imp_right fun hv => ⟨hv.1, hlog.verified _ hv.2⟩
  · obtain ⟨hslot, hgen⟩ := htable table hused
    obtain ⟨file, hfile, rfl⟩ := Option.map_eq_some_iff.mp hslot
    obtain ⟨writer, hwriter, hwtoken, hwtable⟩ := ho₄.inv.digests file hfile
    obtain ⟨writer', hwriter', hwtoken', hwlog⟩ := htail.runs writer hwriter
    have hfinal := (inv_steps ho₆.inv h₇).1
    obtain rfl := token_unique hfinal.tokens hwriter' hrun'
      ((hwtoken'.trans (hwtoken.trans hgen)).trans (htoken'.trans htoken).symm)
    exact hwlog.table _ hwtable

/-! ## One run alone, and two that meet -/

instance (store : Store F) (log : RunLog F) (tag : Look) :
    Decidable (samplingOwn.finds store log tag) :=
  inferInstanceAs (Decidable (SamplesOwn store log tag))

instance (store : Store F) (log : RunLog F) (tag : Look) :
    Decidable (unserialized.finds store log tag) :=
  inferInstanceAs (Decidable True)

/-- A run that nothing meets, from beginning to end. -/
def mappedAlone : Sys textFacts :=
  ((Sys.init committedWorld).started textEngine committedWorktree (runArgs "src" "t0")).play
    tickingSupply (List.replicate 50 0)

theorem mappedAlone_reached :
    ReflTransGen (SysStep textEngine tickingSupply samplingOwn) (Sys.init committedWorld)
      mappedAlone :=
  .head (.start _ committedWorktree (runArgs "src" "t0") List.not_mem_nil trivial)
    (play_reaches (by decide +kernel))

/-- What a query of the sample root answers over a system that stands still. -/
def answerOver (s : Sys textFacts) : Option (Answer textFacts) :=
  (trace (World.apply tickingSupply) (query textEngine committedWorktree committedWorktree.owner)
    s.world).2

theorem answerOver_mappedAlone : (answerOver mappedAlone).isSome = true := by decide +kernel

theorem verdict_of_mappedAlone :
    ∃ r, ((answerOver mappedAlone).get answerOver_mappedAlone).snapshot = .published r ∧
      ∃ run ∈ mappedAlone.runs, run.token = r.generation ∧
        run.Behind ((answerOver mappedAlone).get answerOver_mappedAlone) :=
  verdict_rests_on_one_run tickingSupply_injective mappedAlone_reached
    (Exec.of_trace (fun _ => .refl) (silent_query textEngine _ _)
      (Option.some_get answerOver_mappedAlone).symm) (by decide +kernel)

/-- Two runs of one worktree: the first writes its table, the second comes as far as
its manifest, the first samples and publishes. -/
def mappedTwice : Sys textFacts :=
  (((Sys.init committedWorld).started textEngine committedWorktree (runArgs "src" "t0")).started
    textEngine committedWorktree (runArgs "." "t1")).play tickingSupply
    (List.replicate 31 0 ++ List.replicate 19 1 ++ List.replicate 3 0)

theorem mappedTwice_reached :
    ReflTransGen (SysStep textEngine tickingSupply unserialized) (Sys.init committedWorld)
      mappedTwice :=
  .head (.start _ committedWorktree (runArgs "src" "t0") List.not_mem_nil trivial)
    (.head (.start _ committedWorktree (runArgs "." "t1") (by decide) trivial)
      (play_reaches (by decide +kernel)))

theorem answerOver_mappedTwice : (answerOver mappedTwice).isSome = true := by decide +kernel

/-- **Two runs behind one fresh verdict.** The record is the first run's, the manifest
it certifies is the second's, and the query reports the index fresh. -/
theorem fresh_over_two_runs :
    ∃ answer, Exec (Sem.watching Look (WriteOp textFacts) Sys.world)
        (ReflTransGen (SysStep textEngine tickingSupply unserialized))
        (query textEngine committedWorktree committedWorktree.owner) mappedTwice answer mappedTwice ∧
      ReflTransGen (SysStep textEngine tickingSupply unserialized) (Sys.init committedWorld)
        mappedTwice ∧
      answer.finished.validation.state = .fresh ∧
      ∀ r, answer.snapshot = .published r →
        ∀ run ∈ mappedTwice.runs, run.token = r.generation → ¬run.Behind answer := by
  refine ⟨(answerOver mappedTwice).get answerOver_mappedTwice,
    Exec.of_trace (fun _ => .refl) (silent_query textEngine _ _)
      (Option.some_get answerOver_mappedTwice).symm, mappedTwice_reached, by decide +kernel, ?_⟩
  intro r hr run hrun htoken hbehind
  have hgen : ((answerOver mappedTwice).get answerOver_mappedTwice).snapshot.certified.map
      Record.generation = some "t0".toList := by decide +kernel
  have hother : ∀ run ∈ mappedTwice.runs, run.token = "t0".toList →
      run.log.manifest.map Stamped.ident ≠
        ((answerOver mappedTwice).get answerOver_mappedTwice).manifest.map Stamped.ident := by
    decide +kernel
  rw [hr] at hgen
  exact hother run hrun (htoken.trans (Option.some.inj hgen)) (congrArg _ hbehind.manifest.2)

end Devscout
