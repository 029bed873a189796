/-
# Devscout.Export.OneGeneration -- an export is one generation

Between the two reads of the record nothing is written: while the record is in place
the directory is the one it was published into, and once it is gone its generation is
spent. So at the moment an export reads the compiler facts, the last thing it reads,
everything it read before is still there.
-/

import Devscout.Export.Generations

namespace Devscout

open Lib Lib.Files Lib.Atomic Relation

variable {F : Facts} {E : Engine F} {ident factsIdent : Supply} {s s' m : Shared F}

/-! ## A generation that is gone does not come back -/

theorem grows_steps (h : Serial ident factsIdent s)
    (hs : ReflTransGen (SharedStep E ident factsIdent) s s') : Grows ident s.sys s'.sys := by
  induction hs with
  | refl => exact Grows.refl _
  | tail hmid hstep ih => exact ih.trans (step_grows (serial_steps h hmid).locked.inv hstep.sys)

theorem caches_steps (hs : ReflTransGen (SharedStep E ident factsIdent) s s') :
    s.caches ⊆ s'.caches := by
  induction hs with
  | refl => exact List.Subset.refl _
  | tail _ hstep ih => exact List.Subset.trans ih hstep.caches

/-- A step that changes the directory never leads into an earlier publication. -/
theorem superseded_step (h : Serial ident factsIdent s) (hs : SharedStep E ident factsIdent s s')
    {st : Store F} (hst : st ∈ s.sys.publications) (hne : s.sys.world.store ≠ st) :
    s'.sys.world.store ≠ st := by
  cases hs with
  | edit w hstore hfacts =>
      intro heq
      exact hne (hstore.symm.trans heq)
  | write pre post run op p hruns hprog =>
      intro heq
      have heq : s.sys.world.store.apply ident op = st := heq
      have hmem : run ∈ s.sys.runs := hruns ▸ List.mem_append_right _ List.mem_cons_self
      have howing := h.owing run hmem
      obtain ⟨r, hr⟩ := h.published.record st hst
      cases hop : isPublication op with
      | false =>
          obtain ⟨began, cache, howes, -⟩ := howing.owes hprog
          exact unpublished_apply ident hop howes.unpublished ⟨r, by rw [heq]; exact hr⟩
      | true =>
          -- it would carry the generation of the run that publishes now
          have hobeys := h.locked.inv.acting hruns
          rw [RunState.Obeying, hprog] at hobeys
          have hobeys := (hobeys _ rfl).1
          have hlive : run.isDone = false := by simp [RunState.isDone, hprog]
          obtain ⟨r', rfl⟩ : ∃ r, op = .record (.published r) := by
            cases op with
            | record file => cases file <;> first | exact ⟨_, rfl⟩ | cases hop
            | _ => cases hop
          have hsame : r' = r := by
            rw [← heq] at hr
            simpa [Store.apply, Store.fresh] using hr
          exact howing.unspent hlive st hst r hr (hsame ▸ hobeys.2.1)
  | _ => exact hne

theorem superseded_steps (h : Serial ident factsIdent s)
    (hs : ReflTransGen (SharedStep E ident factsIdent) s s') {st : Store F}
    (hst : st ∈ s.sys.publications) (hne : s.sys.world.store ≠ st) : s'.sys.world.store ≠ st := by
  induction hs with
  | refl => exact hne
  | tail hmid hstep ih =>
      exact superseded_step (serial_steps h hmid) hstep ((grows_steps h hmid).publications hst) ih

/-- **A publication found at both ends of a stretch was there all along.** -/
theorem held_between (h : Serial ident factsIdent s)
    (hsm : ReflTransGen (SharedStep E ident factsIdent) s m)
    (hms : ReflTransGen (SharedStep E ident factsIdent) m s') {st : Store F}
    (hst : st ∈ s.sys.publications) (hend : s'.sys.world.store = st) : m.sys.world.store = st := by
  by_contra hne
  exact superseded_steps (serial_steps h hsm) hms ((grows_steps h hsm).publications hst) hne hend

/-! ## The export -/

/-- Everything a snapshot was read from is on disk together. -/
structure OnDisk (s : Shared F) (snap : Snapshot F) : Prop where
  record : s.sys.world.store.record.map Stamped.content = some (.published snap.record)
  digests : s.sys.world.store.digests.map Stamped.content = some snap.digests
  graph : s.sys.world.store.graph.map Stamped.content = some snap.graph
  manifest : s.sys.world.store.manifest.map Stamped.content = snap.manifest
  messaging : s.sys.world.store.cache.map Stamped.content = some snap.messaging
  compilerFacts : s.facts.map Stamped.content = snap.compilerFacts

/-- **An export is one generation.** Whatever runs start, write, die and publish under
the map lock, from whichever worktree, whatever is edited and admitted while it loads:
an export that succeeds read what was on disk together at one moment, and the run of its
record's generation certified or verified all of it but the compiler facts. -/
theorem export_is_one_generation {w : World F}
    (hreach : ReflTransGen (SharedStep E ident factsIdent) (Shared.init w) s)
    {wt : Worktree} {asking : Option Str} {snap : Snapshot F}
    (hload : Saw Shared.index (ReflTransGen (SharedStep E ident factsIdent))
      (loadBracketed E wt asking) s snap s') :
    ∃ m, ReflTransGen (SharedStep E ident factsIdent) s m ∧
      ReflTransGen (SharedStep E ident factsIdent) m s' ∧ OnDisk m snap ∧
      ∃ run ∈ s'.sys.runs, Stands s' m.sys.world.store snap.record run := by
  have hserial := serial_steps (serial_init w) hreach
  obtain ⟨⟨s₁, s₂, s₃, s₄, s₅, s₆, s₇, s₈, s₉, last, h₁, h₂, h₃, h₄, h₅, h₆, h₇, h₈, h₉, h₁₀, hrecord,
    hdigests, hgraph, hcache, hmanifest, -, hfacts, hlast, hgeneration⟩, -⟩ :=
    saw_loadBracketed (fun _ => .refl) (fun _ _ _ => .trans) hload
  have hs₁ := serial_steps hserial h₁
  have hrecord : s₁.sys.world.store.record.map Stamped.content = some (.published snap.record) :=
    content_of_readRecord hrecord
  have hlast : s₈.sys.world.store.record.map Stamped.content = some (.published last) :=
    content_of_readRecord hlast
  -- the directory of the record is there at both ends, so it is there in between
  have hst := hs₁.published.current ⟨_, hrecord⟩
  have h₁₃ := h₂.trans h₃
  have h₁₄ := h₁₃.trans h₄
  have h₁₅ := h₁₄.trans h₅
  have h₁₇ := (h₁₅.trans h₆).trans h₇
  have hs₈ := serial_steps hs₁ (h₁₇.trans h₈)
  have hend : s₈.sys.world.store = s₁.sys.world.store :=
    hs₈.published.distinct _ (hs₈.published.current ⟨_, hlast⟩) _
      ((grows_steps hs₁ (h₁₇.trans h₈)).publications hst) _ _ hlast hrecord hgeneration
  have held : ∀ {m}, ReflTransGen (SharedStep E ident factsIdent) s₁ m →
      ReflTransGen (SharedStep E ident factsIdent) m s₈ →
        m.sys.world.store = s₁.sys.world.store := fun hsm hms => held_between hs₁ hsm hms hst hend
  have h₇₈ := held h₁₇ h₈
  refine ⟨s₇, h₁.trans h₁₇, h₈.trans (h₉.trans h₁₀), ⟨?_, ?_, ?_, ?_, ?_, hfacts⟩, ?_⟩
  · rw [h₇₈]
    exact hrecord
  · rw [h₇₈, ← held h₂ (h₃.trans (h₄.trans (h₅.trans (h₆.trans (h₇.trans h₈)))))]
    exact hdigests
  · rw [h₇₈, ← held h₁₃ (h₄.trans (h₅.trans (h₆.trans (h₇.trans h₈))))]
    exact hgraph
  · rw [h₇₈, ← held h₁₅ (h₆.trans (h₇.trans h₈))]
    exact hmanifest
  · rw [h₇₈, ← held h₁₄ (h₅.trans (h₆.trans (h₇.trans h₈)))]
    exact hcache
  · obtain ⟨run, hrun, hstands⟩ := hs₁.published.stands _ hst _ hrecord
    have hrest := h₁₇.trans (h₈.trans (h₉.trans h₁₀))
    rw [h₇₈]
    exact hstands.grows hrun (grows_steps hs₁ hrest) (caches_steps hrest)

/-! ## One run and an export after it -/

/-- An action of the locked system that leaves the world's facts alone is a step. -/
theorem act_shares (E : Engine F) (ident factsIdent : Supply) (s : Shared F) (i : Nat) :
    ∃ s', ReflTransGen (SharedStep E ident factsIdent) s s' ∧ s'.sys = s.sys.act ident i ∧
      s'.facts = s.facts := by
  cases hrun : s.sys.runs[i]? with
  | none => exact ⟨s, .refl, by simp only [Sys.act, hrun], rfl⟩
  | some run =>
      obtain ⟨hi, hget⟩ := List.getElem?_eq_some_iff.mp hrun
      have hruns : s.sys.runs = s.sys.runs.take i ++ run :: s.sys.runs.drop (i + 1) := by
        rw [← hget, List.getElem_cons_drop, List.take_append_drop]
      have hset : ∀ run' : RunState F,
          s.sys.runs.set i run' = s.sys.runs.take i ++ run' :: s.sys.runs.drop (i + 1) :=
        fun run' => by rw [List.set_eq_take_append_cons_drop, if_pos hi]
      cases hprog : run.prog with
      | ret a => exact ⟨s, .refl, by simp only [Sys.act, hrun, hprog], rfl⟩
      | fail msg => exact ⟨s, .refl, by simp only [Sys.act, hrun, hprog], rfl⟩
      | look tag k =>
          exact ⟨_, .single (.look s _ _ run tag k hruns hprog),
            by simp only [Sys.act, hrun, hprog, hset], rfl⟩
      | put op p =>
          exact ⟨_, .single (.write s _ _ run op p hruns hprog),
            by simp only [Sys.act, hrun, hprog, hset], rfl⟩

theorem play_shares (E : Engine F) (ident factsIdent : Supply) (schedule : List Nat) (s : Shared F) :
    ∃ s', ReflTransGen (SharedStep E ident factsIdent) s s' ∧ s'.sys = s.sys.play ident schedule ∧
      s'.facts = s.facts := by
  induction schedule generalizing s with
  | nil => exact ⟨s, .refl, rfl, rfl⟩
  | cons i schedule ih =>
      obtain ⟨s₁, h₁, hsys₁, hfacts₁⟩ := act_shares E ident factsIdent s i
      obtain ⟨s₂, h₂, hsys₂, hfacts₂⟩ := ih s₁
      exact ⟨s₂, h₁.trans h₂, by rw [hsys₂, hsys₁]; rfl, hfacts₂.trans hfacts₁⟩

/-- What an export reads after one run. -/
def exportOnce : Option (Snapshot textFacts) :=
  (trace (fun _ x => x) (loadBracketed textEngine committedWorktree committedWorktree.owner)
    ⟨mappedOnce.world, none⟩).2

theorem exportOnce_loads : exportOnce.isSome = true := by decide +kernel

theorem export_after_one_run :
    ∃ s m : Shared textFacts, s.sys = mappedOnce ∧
      ReflTransGen (SharedStep textEngine tickingSupply tickingSupply) s m ∧
      OnDisk m (exportOnce.get exportOnce_loads) ∧
      ∃ run ∈ s.sys.runs, Stands s m.sys.world.store (exportOnce.get exportOnce_loads).record run := by
  have hstart : ReflTransGen (SharedStep textEngine tickingSupply tickingSupply)
      (Shared.init committedWorld)
      { Shared.init committedWorld with
        sys := (Sys.init committedWorld).started textEngine committedWorktree (runArgs "src" "t0") } :=
    .single (.start _ committedWorktree (runArgs "src" "t0") List.not_mem_nil
      fun _ hrun => absurd hrun List.not_mem_nil)
  obtain ⟨s, hplay, hsys, hfacts⟩ := play_shares textEngine tickingSupply tickingSupply
    (List.replicate 50 0)
    { Shared.init committedWorld with
      sys := (Sys.init committedWorld).started textEngine committedWorktree (runArgs "src" "t0") }
  have hsys : s.sys = mappedOnce := hsys
  have hfacts : s.facts = none := hfacts
  have hindex : s.index = ⟨mappedOnce.world, none⟩ := by rw [Shared.index, hsys, hfacts]
  -- nothing moves while the export reads, so a plain run of it is an execution
  have hload : Saw Shared.index (ReflTransGen (SharedStep textEngine tickingSupply tickingSupply))
      (loadBracketed textEngine committedWorktree committedWorktree.owner) s
      (exportOnce.get exportOnce_loads) s := by
    have hrun : (trace (fun _ x => x)
        (loadBracketed textEngine committedWorktree committedWorktree.owner) s.index).2 =
          some (exportOnce.get exportOnce_loads) := by
      rw [hindex]
      exact (Option.some_get exportOnce_loads).symm
    exact Exec.of_trace (fun _ => .refl) (silent_loadBracketed _ _ _) hrun
  obtain ⟨m, hm, -, hdisk, run, hrun, hstands⟩ :=
    export_is_one_generation (hstart.trans hplay) hload
  exact ⟨s, m, hsys, hm, hdisk, run, hrun, hstands⟩

end Devscout
