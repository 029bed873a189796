/-
# Devscout.Freshness.Interleaving -- map runs over one state directory

Any number of runs over one state directory, taken one action at a time, with
edits of the work trees between any two actions and a run dying at any of them. A
regime says what the environment promises: whether a run may start, and what an
observation must find. Under the map lock a run starts only when no other is live.

Two facts hold in every regime. Each run keeps to its write protocol, because the
protocol was proved against an environment that does anything. And the state only
grows: file identities are never reused, logs are only extended.
-/

import Devscout.Freshness.Protocol
import Devscout.Freshness.ScopeAgreement
import Devscout.Freshness.Validate

namespace Devscout

open Lib Lib.Files Lib.Atomic Relation

variable {F : Facts} (E : Engine F) (ident : Supply)

/-! ## The system -/

/-- One run in progress, finished or dead. -/
structure RunState (F : Facts) where
  wt : Worktree
  token : Str
  prog : MapProg F (MapReport F)
  log : RunLog F

/-- Nothing is left for the run to do. -/
def RunState.isDone (run : RunState F) : Bool :=
  match run.prog with
  | .ret _ => true
  | .fail _ => true
  | _ => false

/-- The world, every run so far, and the directory as each publication left it. -/
structure Sys (F : Facts) where
  world : World F
  runs : List (RunState F)
  publications : List (Store F)

/-- What the environment promises. -/
structure Regime (F : Facts) where
  /-- When a run may start. -/
  admits : Sys F → Prop
  /-- What an observation of the directory by a run of this log finds. -/
  finds : Store F → RunLog F → Look → Prop

/-- A published record, as a write. -/
def isPublication : WriteOp F → Bool
  | .record (.published _) => true
  | _ => false

/-- One step of the system. -/
inductive SysStep (reg : Regime F) : Sys F → Sys F → Prop
  | edit (s : Sys F) (w : World F) (h : w.store = s.world.store) :
      SysStep reg s { s with world := w }
  | start (s : Sys F) (wt : Worktree) (args : MapArgs)
      (hfresh : args.token ∉ s.runs.map RunState.token) (h : reg.admits s) :
      SysStep reg s
        { s with runs := s.runs ++ [⟨wt, args.token, mapRepo E wt args, RunLog.empty⟩] }
  | look (s : Sys F) (pre post : List (RunState F)) (run : RunState F) (tag : Look)
      (k : World F → MapProg F (MapReport F)) (hruns : s.runs = pre ++ run :: post)
      (hprog : run.prog = .look tag k) (h : reg.finds s.world.store run.log tag) :
      SysStep reg s { s with runs := pre ++
        { run with prog := k s.world, log := run.log.see s.world.store tag } :: post }
  | write (s : Sys F) (pre post : List (RunState F)) (run : RunState F) (op : WriteOp F)
      (p : MapProg F (MapReport F)) (hruns : s.runs = pre ++ run :: post)
      (hprog : run.prog = .put op p) :
      SysStep reg s
        { world := s.world.apply ident op
          runs := pre ++ { run with prog := p, log := run.log.note ident s.world.store op } :: post
          publications := s.publications ++
            if isPublication op then [s.world.store.apply ident op] else [] }
  | die (s : Sys F) (pre post : List (RunState F)) (run : RunState F)
      (hruns : s.runs = pre ++ run :: post) :
      SysStep reg s { s with runs := pre ++ { run with prog := .fail [] } :: post }

/-- Before the first run. -/
def Sys.init (w : World F) : Sys F := ⟨{ w with store := Store.empty }, [], []⟩

/-! ## What every regime keeps -/

/-- The run will keep to the protocol, whatever happens. -/
def RunState.Obeying (w : World F) (run : RunState F) : Prop :=
  Safe (Running.sem ident) Running.LogKept (fun st => Obeys run.wt.owner run.token st.log)
    (fun _ _ => True) run.prog ⟨w, run.log⟩

/-- Some run of that generation wrote the table. -/
def Sys.Wrote (s : Sys F) (table : DigestTable) : Prop :=
  ∃ run ∈ s.runs, run.token = table.generation ∧ run.log.table = some table

structure Inv (s : Sys F) : Prop where
  tokens : (s.runs.map RunState.token).Nodup
  graphDated : Dated ident s.world.store.renames s.world.store.graph
  manifestDated : Dated ident s.world.store.renames s.world.store.manifest
  obeying : ∀ run ∈ s.runs, run.Obeying ident s.world
  digests : ∀ file, s.world.store.digests = some file → s.Wrote file.content

/-- What never goes back. -/
structure Grows (s s' : Sys F) : Prop where
  renames : s.world.store.renames ≤ s'.world.store.renames
  graph : Replaced ident s.world.store.renames s.world.store.graph s'.world.store.graph
  manifest : Replaced ident s.world.store.renames s.world.store.manifest s'.world.store.manifest
  publications : s.publications ⊆ s'.publications
  runs : ∀ run ∈ s.runs, ∃ run' ∈ s'.runs, run'.token = run.token ∧ run.log.Extends run'.log

variable {E ident} {reg : Regime F} {s s' s'' : Sys F}

theorem Grows.refl (s : Sys F) : Grows ident s s :=
  ⟨le_rfl, Replaced.refl _ _ _, Replaced.refl _ _ _, List.Subset.refl _,
    fun run hrun => ⟨run, hrun, rfl, RunLog.Extends.refl _⟩⟩

theorem Grows.trans (h : Grows ident s s') (h' : Grows ident s' s'') : Grows ident s s'' where
  renames := h.renames.trans h'.renames
  graph := h.graph.trans h.renames h'.graph
  manifest := h.manifest.trans h.renames h'.manifest
  publications := List.Subset.trans h.publications h'.publications
  runs := fun run hrun => by
    obtain ⟨run₁, hrun₁, htoken₁, hlog₁⟩ := h.runs run hrun
    obtain ⟨run₂, hrun₂, htoken₂, hlog₂⟩ := h'.runs run₁ hrun₁
    exact ⟨run₂, hrun₂, htoken₂.trans htoken₁, hlog₁.trans hlog₂⟩

theorem Sys.Wrote.grows {table : DigestTable} (h : s.Wrote table) (hgrows : Grows ident s s') :
    s'.Wrote table := by
  obtain ⟨run, hrun, htoken, htable⟩ := h
  obtain ⟨run', hrun', htoken', hlog⟩ := hgrows.runs run hrun
  exact ⟨run', hrun', htoken'.trans htoken, hlog.table _ htable⟩

theorem token_unique {run run' : RunState F} (h : (s.runs.map RunState.token).Nodup)
    (hrun : run ∈ s.runs) (hrun' : run' ∈ s.runs) (htoken : run.token = run'.token) : run = run' :=
  List.inj_on_of_nodup_map h hrun hrun' htoken

theorem RunState.Obeying.world {run : RunState F} {w : World F} (h : run.Obeying ident w)
    (w' : World F) : run.Obeying ident w' :=
  Safe.env (fun _ _ _ hab hbc => hbc.trans hab) h rfl

/-- Replacing one run by a later state of itself. -/
theorem runs_replaced {pre post : List (RunState F)} {run run' : RunState F}
    (htoken : run'.token = run.token) (hlog : run.log.Extends run'.log) :
    ∀ r ∈ pre ++ run :: post, ∃ r' ∈ pre ++ run' :: post,
      r'.token = r.token ∧ r.log.Extends r'.log := by
  intro r hr
  rcases List.mem_append.mp hr with hpre | hrest
  · exact ⟨r, List.mem_append_left _ hpre, rfl, RunLog.Extends.refl _⟩
  · rcases List.mem_cons.mp hrest with rfl | hpost
    · exact ⟨run', by simp, htoken, hlog⟩
    · exact ⟨r, by simp [hpost], rfl, RunLog.Extends.refl _⟩

theorem mem_replaced {pre post : List (RunState F)} {run run' r : RunState F}
    (h : r ∈ pre ++ run' :: post) : r = run' ∨ r ∈ pre ++ run :: post := by
  rcases List.mem_append.mp h with hpre | hrest
  · exact Or.inr (List.mem_append_left _ hpre)
  · rcases List.mem_cons.mp hrest with rfl | hpost
    · exact Or.inl rfl
    · exact Or.inr (by simp [hpost])

/-- The log of a run that acts is extended, and the run keeps obeying. -/
theorem Inv.acting (hinv : Inv ident s) {pre post : List (RunState F)} {run : RunState F}
    (hruns : s.runs = pre ++ run :: post) : run.Obeying ident s.world :=
  hinv.obeying run (hruns ▸ List.mem_append_right _ List.mem_cons_self)

theorem step_grows (hinv : Inv ident s) (hs : SysStep E ident reg s s') : Grows ident s s' := by
  cases hs with
  | edit w h =>
      exact ⟨by rw [h], by rw [h]; exact Replaced.refl _ _ _, by rw [h]; exact Replaced.refl _ _ _,
        List.Subset.refl _, fun run hrun => ⟨run, hrun, rfl, RunLog.Extends.refl _⟩⟩
  | start wt args hfresh h =>
      exact ⟨le_rfl, Replaced.refl _ _ _, Replaced.refl _ _ _, List.Subset.refl _,
        fun run hrun => ⟨run, List.mem_append_left _ hrun, rfl, RunLog.Extends.refl _⟩⟩
  | look pre post run tag k hruns hprog h =>
      refine ⟨le_rfl, Replaced.refl _ _ _, Replaced.refl _ _ _, List.Subset.refl _, ?_⟩
      exact hruns ▸ runs_replaced rfl (RunLog.extends_see _ _ _)
  | write pre post run op p hruns hprog =>
      have hobeys := hinv.acting hruns
      rw [RunState.Obeying, hprog] at hobeys
      refine ⟨Store.renames_le_apply ident _ op, (written_graph ident _ op).replaced,
        (written_manifest ident _ op).replaced, List.subset_append_left _ _, ?_⟩
      exact hruns ▸ runs_replaced rfl (RunLog.extends_note (hobeys _ rfl).1 _)
  | die pre post run hruns =>
      refine ⟨le_rfl, Replaced.refl _ _ _, Replaced.refl _ _ _, List.Subset.refl _, ?_⟩
      exact hruns ▸ runs_replaced rfl (RunLog.Extends.refl _)

theorem Inv.tokens_replaced (hinv : Inv ident s) {pre post : List (RunState F)}
    {run run' : RunState F} (hruns : s.runs = pre ++ run :: post)
    (htoken : run'.token = run.token) : ((pre ++ run' :: post).map RunState.token).Nodup := by
  have h := hinv.tokens
  rw [hruns] at h
  simpa [htoken] using h

/-- A digest table in place was written by the run of its generation. -/
theorem wrote_of_write (hinv : Inv ident s) {pre post : List (RunState F)} {run : RunState F}
    {op : WriteOp F} {p : MapProg F (MapReport F)}
    (hop : Obeys run.wt.owner run.token run.log op) (hgrows : Grows ident s s')
    (hs' : s'.runs =
      pre ++ { run with prog := p, log := run.log.note ident s.world.store op } :: post) :
    ∀ file, (s.world.store.apply ident op).digests = some file → s'.Wrote file.content := by
  intro file hfile
  have hold : s.world.store.digests = some file → s'.Wrote file.content :=
    fun h => (hinv.digests file h).grows hgrows
  cases op with
  | digests table =>
      obtain rfl : _ = file := Option.some.inj hfile
      exact ⟨{ run with prog := p, log := run.log.note ident s.world.store (.digests table) },
        by rw [hs']; exact List.mem_append_right _ List.mem_cons_self, hop.1.symm, rfl⟩
  | removeDigests => cases hfile
  | transport inputs => cases inputs <;> exact hold hfile
  | units units => cases units <;> exact hold hfile
  | crates crates => cases crates <;> exact hold hfile
  | _ => exact hold hfile

theorem inv_step (hinv : Inv ident s) (hs : SysStep E ident reg s s') : Inv ident s' := by
  have hgrows := step_grows hinv hs
  cases hs with
  | edit w h =>
      refine ⟨hinv.tokens, by rw [h]; exact hinv.graphDated, by rw [h]; exact hinv.manifestDated,
        fun run hrun => (hinv.obeying run hrun).world w, fun file hfile => ?_⟩
      rw [h] at hfile
      exact hinv.digests file hfile
  | start wt args hfresh h =>
      refine ⟨?_, hinv.graphDated, hinv.manifestDated, ?_,
        fun file hfile => (hinv.digests file hfile).grows hgrows⟩
      · simpa [List.nodup_append, hinv.tokens] using fun run hrun htoken =>
          hfresh (List.mem_map.mpr ⟨run, hrun, htoken⟩)
      · intro run hrun
        rcases List.mem_append.mp hrun with hold | hnew
        · exact hinv.obeying run hold
        · rw [List.mem_singleton.mp hnew]
          exact mapRepo_obeys E wt args s.world
  | look pre post run tag k hruns hprog h =>
      have hobeys := hinv.acting hruns
      rw [RunState.Obeying, hprog] at hobeys
      refine ⟨?_, hinv.graphDated, hinv.manifestDated, ?_,
        fun file hfile => (hinv.digests file hfile).grows hgrows⟩
      · exact hinv.tokens_replaced hruns rfl
      · intro r hr
        rcases mem_replaced hr with rfl | hold
        · exact hobeys _ rfl
        · exact hinv.obeying r (hruns ▸ hold)
  | write pre post run op p hruns hprog =>
      have hobeys := hinv.acting hruns
      rw [RunState.Obeying, hprog] at hobeys
      obtain ⟨hop, hrest⟩ := hobeys ⟨s.world, run.log⟩ rfl
      refine ⟨?_, (written_graph ident _ op).dated hinv.graphDated,
        (written_manifest ident _ op).dated hinv.manifestDated, ?_, ?_⟩
      · exact hinv.tokens_replaced hruns rfl
      · intro r hr
        rcases mem_replaced hr with rfl | hold
        · exact hrest
        · exact (hinv.obeying r (hruns ▸ hold)).world _
      · exact wrote_of_write hinv hop hgrows rfl
  | die pre post run hruns =>
      refine ⟨?_, hinv.graphDated, hinv.manifestDated, ?_,
        fun file hfile => (hinv.digests file hfile).grows hgrows⟩
      · exact hinv.tokens_replaced hruns rfl
      · intro r hr
        rcases mem_replaced hr with rfl | hold
        · trivial
        · exact hinv.obeying r (hruns ▸ hold)

theorem inv_init (w : World F) : Inv ident (Sys.init w) where
  tokens := List.nodup_nil
  graphDated := Dated.none ident _
  manifestDated := Dated.none ident _
  obeying := fun _ hrun => absurd hrun List.not_mem_nil
  digests := fun _ hfile => absurd hfile (Option.some_ne_none _).symm

/-- Whole runs of the system keep the invariant and grow. -/
theorem inv_steps (hinv : Inv ident s) (hs : ReflTransGen (SysStep E ident reg) s s') :
    Inv ident s' ∧ Grows ident s s' := by
  induction hs with
  | refl => exact ⟨hinv, Grows.refl s⟩
  | tail _ hstep ih => exact ⟨inv_step ih.1 hstep, ih.2.trans (step_grows ih.1 hstep)⟩

/-! ## Taking the steps of a schedule -/

/-- The state once a run has started. -/
def Sys.started (E : Engine F) (wt : Worktree) (args : MapArgs) (s : Sys F) : Sys F :=
  { s with runs := s.runs ++ [⟨wt, args.token, mapRepo E wt args, RunLog.empty⟩] }

/-- The next action of the `i`-th run, if it has one. -/
def Sys.act (ident : Supply) (s : Sys F) (i : Nat) : Sys F :=
  match s.runs[i]? with
  | none => s
  | some run =>
      match run.prog with
      | .look tag k =>
          let next := { run with prog := k s.world, log := run.log.see s.world.store tag }
          { s with runs := s.runs.set i next }
      | .put op p =>
          let next := { run with prog := p, log := run.log.note ident s.world.store op }
          { world := s.world.apply ident op
            runs := s.runs.set i next
            publications := s.publications ++
              if isPublication op then [s.world.store.apply ident op] else [] }
      | _ => s

/-- The actions of the runs a schedule names, in its order. -/
def Sys.play (ident : Supply) (s : Sys F) (schedule : List Nat) : Sys F :=
  schedule.foldl (Sys.act ident) s

/-- The `i`-th run's next action finds what the regime promises. -/
def Sys.Meets (reg : Regime F) (s : Sys F) (i : Nat) : Prop :=
  match s.runs[i]? with
  | none => True
  | some run =>
      match run.prog with
      | .look tag _ => reg.finds s.world.store run.log tag
      | _ => True

/-- Every action of the schedule does. -/
def Sys.Meeting (ident : Supply) (reg : Regime F) (s : Sys F) : List Nat → Prop
  | [] => True
  | i :: schedule => s.Meets reg i ∧ (s.act ident i).Meeting ident reg schedule

section Decide

variable (reg) [∀ store log tag, Decidable (reg.finds store log tag)]

instance Sys.decMeets (s : Sys F) (i : Nat) : Decidable (s.Meets reg i) := by
  unfold Sys.Meets
  split
  · exact inferInstance
  · split <;> exact inferInstance

instance Sys.decMeeting (s : Sys F) : (schedule : List Nat) →
    Decidable (s.Meeting ident reg schedule)
  | [] => inferInstanceAs (Decidable True)
  | i :: schedule =>
      have := Sys.decMeeting (s.act ident i) schedule
      inferInstanceAs (Decidable (s.Meets reg i ∧ (s.act ident i).Meeting ident reg schedule))

end Decide

theorem act_reaches {i : Nat} (h : s.Meets reg i) :
    ReflTransGen (SysStep E ident reg) s (s.act ident i) := by
  cases hrun : s.runs[i]? with
  | none =>
      simp only [Sys.act, hrun]
      exact .refl
  | some run =>
      obtain ⟨hi, hget⟩ := List.getElem?_eq_some_iff.mp hrun
      have hruns : s.runs = s.runs.take i ++ run :: s.runs.drop (i + 1) := by
        rw [← hget, List.getElem_cons_drop, List.take_append_drop]
      have hset : ∀ run' : RunState F,
          s.runs.set i run' = s.runs.take i ++ run' :: s.runs.drop (i + 1) := fun run' => by
        rw [List.set_eq_take_append_cons_drop, if_pos hi]
      cases hprog : run.prog with
      | ret a =>
          simp only [Sys.act, hrun, hprog]
          exact .refl
      | fail msg =>
          simp only [Sys.act, hrun, hprog]
          exact .refl
      | look tag k =>
          simp only [Sys.Meets, hrun, hprog] at h
          simp only [Sys.act, hrun, hprog, hset]
          exact .single (.look s _ _ run tag k hruns hprog h)
      | put op p =>
          simp only [Sys.act, hrun, hprog, hset]
          exact .single (.write s _ _ run op p hruns hprog)

theorem play_reaches {schedule : List Nat} (h : s.Meeting ident reg schedule) :
    ReflTransGen (SysStep E ident reg) s (s.play ident schedule) := by
  induction schedule generalizing s with
  | nil => exact .refl
  | cons i schedule ih => exact (act_reaches h.1).trans (ih h.2)

/-- `/r/src/a.cs` under a commit, never mapped. -/
def committedWorld : World textFacts :=
  { World.ofTree sampleTree with git := fun _ => ⟨some "c0".toList, [], fun _ _ => false⟩ }

def committedWorktree : Worktree := ⟨sampleRoot, some "r/.git".toList⟩

/-- A run over one directory, with its generation token. -/
def runArgs (dir token : String) : MapArgs := ⟨[dir.toList], false, token.toList, .inOrder⟩

end Devscout
