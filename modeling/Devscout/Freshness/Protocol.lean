/-
# Devscout.Freshness.Protocol -- the write protocol of one run

What a run promises about its writes whatever happens around it. A log follows
the run: the files it installed, the digest table it wrote, the graph identity it
compared with the one the prior record certifies, and the two identities it
sampled for its own record. The log is bookkeeping of this development, no
observation shows it to the program.

The promises: one digest table, of the run's own generation; no artifact once it
is sampled; and a published record that names exactly the sampled identities,
after the table.
-/

import Devscout.MapQuiet

namespace Devscout

open Lib Lib.Files Lib.Atomic

variable {F : Facts} (E : Engine F) {ident : Supply}

/-- What one run did and saw so far. -/
structure RunLog (F : Facts) where
  manifest : Option (StateFile Value)
  graph : Option (StateFile (Graph F))
  table : Option DigestTable
  /-- The graph identity compared with the prior record's. -/
  verified : Option (Option ArtifactIdentity)
  sampledGraph : Option (Option ArtifactIdentity)
  sampledManifest : Option (Option ArtifactIdentity)

namespace RunLog

def empty : RunLog F := ⟨none, none, none, none, none, none⟩

/-- An observation of the state directory, the first of its kind kept. -/
def see (store : Store F) (log : RunLog F) : Look → RunLog F
  | .graphOnDisk => { log with verified := log.verified.or (some store.graphIdentity) }
  | .sampleGraph => { log with sampledGraph := log.sampledGraph.or (some store.graphIdentity) }
  | .sampleManifest =>
      { log with sampledManifest := log.sampledManifest.or (some store.manifestIdentity) }
  | _ => log

/-- A write to the state directory. -/
def note (ident : Supply) (store : Store F) (log : RunLog F) : WriteOp F → RunLog F
  | .manifest value => { log with manifest := store.fresh ident value }
  | .graph graph => { log with graph := store.fresh ident graph }
  | .digests table => { log with table := some table }
  | _ => log

/-- What a log that has come to `b` kept of `a`. -/
structure Extends (a b : RunLog F) : Prop where
  table : ∀ t, a.table = some t → b.table = some t
  verified : ∀ i, a.verified = some i → b.verified = some i
  sampledGraph : ∀ i, a.sampledGraph = some i → b.sampledGraph = some i ∧ b.graph = a.graph
  sampledManifest : ∀ i, a.sampledManifest = some i →
    b.sampledManifest = some i ∧ b.manifest = a.manifest

theorem Extends.refl (a : RunLog F) : a.Extends a :=
  ⟨fun _ h => h, fun _ h => h, fun _ h => ⟨h, rfl⟩, fun _ h => ⟨h, rfl⟩⟩

theorem Extends.trans {a b c : RunLog F} (hab : a.Extends b) (hbc : b.Extends c) : a.Extends c where
  table := fun t h => hbc.table t (hab.table t h)
  verified := fun i h => hbc.verified i (hab.verified i h)
  sampledGraph := fun i h => by
    obtain ⟨hb, heq⟩ := hab.sampledGraph i h
    exact ⟨(hbc.sampledGraph i hb).1, (hbc.sampledGraph i hb).2.trans heq⟩
  sampledManifest := fun i h => by
    obtain ⟨hb, heq⟩ := hab.sampledManifest i h
    exact ⟨(hbc.sampledManifest i hb).1, (hbc.sampledManifest i hb).2.trans heq⟩

theorem extends_see (store : Store F) (log : RunLog F) (tag : Look) :
    log.Extends (log.see store tag) := by
  cases tag <;> first
    | exact Extends.refl log
    | constructor <;> intro i h <;> simp [see, h]

end RunLog

/-- A run's state: the world and its log. -/
structure Running (F : Facts) where
  world : World F
  log : RunLog F

/-- The actions of a run, the log kept beside the world. -/
def Running.sem (ident : Supply) : Sem (Running F) (World F) Look (WriteOp F) where
  view := Running.world
  see := fun tag s => ⟨s.world, s.log.see s.world.store tag⟩
  apply := fun op s => ⟨s.world.apply ident op, s.log.note ident s.world.store op⟩

/-- The environment does as it likes with the world. -/
def Running.LogKept (s s' : Running F) : Prop := s'.log = s.log

/-- What the run owes at each of its writes. -/
def Obeys (owner : Option Str) (token : Str) (log : RunLog F) : WriteOp F → Prop
  | .manifest _ => log.sampledManifest = none
  | .graph _ => log.sampledGraph = none
  | .removeDigests => log.table = none
  | .digests table => table.generation = token ∧ log.table = none
  | .record (.published r) => owner = some r.owner ∧ r.generation = token ∧
      log.table.map DigestTable.generation = some token ∧
      log.sampledGraph = some r.artifacts.graph ∧ log.sampledManifest = some r.artifacts.manifest
  | _ => True

/-- A write that keeps to the protocol extends the log. -/
theorem RunLog.extends_note {owner : Option Str} {token : Str} {log : RunLog F} {op : WriteOp F}
    (h : Obeys owner token log op) (store : Store F) : log.Extends (log.note ident store op) := by
  cases op with
  | manifest value =>
      refine ⟨fun _ h => h, fun _ h => h, fun _ h => ⟨h, rfl⟩, fun i hi => ?_⟩
      rw [show log.sampledManifest = none from h] at hi
      cases hi
  | graph graph =>
      refine ⟨fun _ h => h, fun _ h => h, fun i hi => ?_, fun _ h => ⟨h, rfl⟩⟩
      rw [show log.sampledGraph = none from h] at hi
      cases hi
  | digests table =>
      refine ⟨fun t ht => ?_, fun _ h => h, fun _ h => ⟨h, rfl⟩, fun _ h => ⟨h, rfl⟩⟩
      rw [h.2] at ht
      cases ht
  | _ => exact RunLog.Extends.refl log

/-! ## A run keeps to it -/

/-- The writes of a run before its digest table. -/
def isEarly : WriteOp F → Bool
  | .digests _ => false
  | .record (.published _) => false
  | _ => true

/-- Nothing is sampled and no table is written yet. -/
structure RunLog.Early (log : RunLog F) : Prop where
  table : log.table = none
  sampledGraph : log.sampledGraph = none
  sampledManifest : log.sampledManifest = none

theorem RunLog.Early.see {log : RunLog F} (h : log.Early) (store : Store F) {tag : Look}
    (htag : isSample tag = false) : (log.see store tag).Early := by
  cases tag <;> first | exact h | exact ⟨h.1, h.2, h.3⟩ | cases htag

theorem RunLog.Early.note {log : RunLog F} (h : log.Early) (store : Store F) {op : WriteOp F}
    (hop : isEarly op = true) : (log.note ident store op).Early := by
  cases op <;> first | exact ⟨h.1, h.2, h.3⟩ | cases hop

theorem RunLog.Early.obeys {owner : Option Str} {token : Str} {log : RunLog F} (h : log.Early)
    {op : WriteOp F} (hop : isEarly op = true) : Obeys owner token log op := by
  cases op with
  | record file =>
      cases file <;> trivial
  | removeDigests => exact h.table
  | digests table => cases hop
  | manifest value => exact h.sampledManifest
  | graph graph => exact h.sampledGraph
  | _ => trivial

theorem within_markInProgress (owner : Option Str) :
    (markInProgress owner : MapProg F Unit).Within (isSample · = false) (isEarly · = true) := by
  cases owner with
  | some owner => exact Prog.within_write rfl
  | none => exact Prog.Within.bind (Prog.within_write rfl) fun _ => Prog.within_write rfl

theorem within_writeAll {ops : List (WriteOp F)} (h : ∀ op ∈ ops, isEarly op = true) :
    (writeAll ops).Within (isSample · = false) (isEarly · = true) := by
  induction ops with
  | nil => trivial
  | cons op ops ih =>
      obtain ⟨hop, hops⟩ := List.forall_mem_cons.mp h
      exact ⟨hop, ih hops⟩

theorem within_rebuildNow (wt : Worktree) (graphFiles : List GraphFile)
    (fresh : OrderedMap Str (AnyFragment F)) (models : Models F) :
    (rebuildNow E wt graphFiles fresh models).Within (isSample · = false) (isEarly · = true) := by
  iterate 4 refine Prog.Within.bind (Prog.within_read (by rfl) _) fun _ => ?_
  refine Prog.Within.bind (within_writeAll fun op hop => ?_) fun _ => trivial
  simp only [rebuildOps, List.mem_cons, List.not_mem_nil, or_false] at hop
  rcases hop with rfl | rfl | rfl | rfl | rfl | rfl <;> rfl

theorem within_rebuildGraph (wt : Worktree) (graphFiles : List GraphFile)
    (fresh : OrderedMap Str (AnyFragment F)) (changed : Bool) (models : Models F) :
    (rebuildGraph E wt graphFiles fresh changed models).Within (isSample · = false)
      (isEarly · = true) := by
  rw [rebuildGraph]
  split
  · exact within_rebuildNow E wt graphFiles fresh models
  · refine Prog.Within.bind (Prog.within_read (by rfl) _) fun current => ?_
    split
    · trivial
    · exact within_rebuildNow E wt graphFiles fresh models

/-- **Every run keeps to the protocol**, whatever happens to the world around it. -/
theorem mapRepo_obeys (wt : Worktree) (args : MapArgs) (w : World F) :
    Safe (Running.sem ident) Running.LogKept (fun s => Obeys wt.owner args.token s.log)
      (fun _ _ => True) (mapRepo E wt args) ⟨w, RunLog.empty⟩ := by
  have hrefl : ∀ s : Running F, Running.LogKept s s := fun _ => rfl
  have hearly : ∀ {α : Type} {p : MapProg F α} {s : Running F},
      p.Within (isSample · = false) (isEarly · = true) → s.log.Early →
      Safe (Running.sem ident) Running.LogKept (fun s => Obeys wt.owner args.token s.log)
        (fun _ s => s.log.Early) p s := by
    intro α p s hp hs
    refine hp.safe (I := fun s : Running F => s.log.Early) ?_ ?_ ?_ hs
    · intro s s' h hkept
      exact hkept ▸ h
    · intro tag s htag h
      exact h.see s.world.store htag
    · intro op s hop h
      exact ⟨h.obeys hop, h.note s.world.store hop⟩
  refine Safe.bind hrefl ((hearly ?_ ⟨rfl, rfl, rfl⟩).mono fun p s hs => ?_)
  · exact (within_planRun E wt args).mono (fun _ h => h) fun _ h => h.elim
  refine Safe.bind hrefl ((hearly (within_markInProgress _) hs).mono fun _ s hs => ?_)
  refine Safe.bind hrefl ((hearly (Prog.within_write (by rfl)) hs).mono fun _ s hs => ?_)
  refine Safe.bind hrefl ((hearly (within_rebuildGraph E _ _ _ _ _) hs).mono fun outcome s hs => ?_)
  refine Safe.bind hrefl ((hearly (Prog.within_read (by rfl) _) hs).mono fun status2 s hs => ?_)
  cases howner : wt.owner with
  | none => exact fun _ _ => trivial
  | some owner =>
      -- the table, the two samples, the record
      intro s₁ h₁
      rw [Running.LogKept] at h₁
      refine ⟨⟨rfl, h₁ ▸ hs.table⟩, fun s₂ h₂ s₃ h₃ s₄ h₄ => ⟨?_, fun _ _ => trivial⟩⟩
      simp only [Running.LogKept, Running.sem, RunLog.note, RunLog.see] at h₂ h₃ h₄
      have hgraph : s₂.log.sampledGraph = none := by rw [h₂, h₁, hs.sampledGraph]
      have hmanifest : s₃.log.sampledManifest = none := by rw [h₃, h₂, h₁, hs.sampledManifest]
      exact ⟨rfl, rfl, by simp [h₄, h₃, h₂], by simp [h₄, h₃, hgraph, Running.sem],
        by simp [h₄, hmanifest, Running.sem]⟩

end Devscout
