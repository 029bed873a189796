/-
# Devscout.History -- edits, runs and deaths, one after another

A history of one state directory: it starts empty, then edits change everything
but the directory, and runs change nothing but the directory. A run may be cut off
after any number of its writes. Beside each world a history keeps which run last
wrote the graph, and whether that run lived to write the fragments index after it.
-/

import Devscout.MapQuiet

namespace Devscout

open Lib Lib.Files Lib.Atomic

variable {F : Facts}

/-- What a class of histories allows. -/
structure Setting (F : Facts) where
  /-- Which worlds an edit may lead to. -/
  world : World F → Prop
  run : Worktree → MapArgs → Prop
  mayDie : Bool

/-- The run that last wrote the graph: where it started, what it planned, and
whether it wrote the fragments index too. -/
structure LastGraph (F : Facts) where
  world : World F
  plan : Plan F
  whole : Bool

def isGraphWrite : WriteOp F → Bool
  | .graph _ => true
  | _ => false

def isIndexWrite : WriteOp F → Bool
  | .index _ => true
  | _ => false

section Events

variable (E : Engine F) (ident : Supply)

/-- The writes of a run from `w` cut off after `n` of them. -/
def writesOf (wt : Worktree) (args : MapArgs) (n : Nat) (w : World F) : List (WriteOp F) :=
  (trace (World.apply ident) (mapRepo E wt args) w).1.take n

/-- Which run last wrote the graph, after one more. -/
def lastAfter (wt : Worktree) (args : MapArgs) (n : Nat) (w : World F)
    (last : Option (LastGraph F)) : Option (LastGraph F) :=
  match (trace (World.apply ident) (planRun E wt args) w).2 with
  | none => last
  | some p =>
      let writes := writesOf E ident wt args n w
      if writes.any isGraphWrite then some ⟨w, p, writes.any isIndexWrite⟩ else last

inductive History (S : Setting F) : World F → Option (LastGraph F) → Prop
  | start {w : World F} : S.world w → w.store = Store.empty → History S w none
  | edit {w w' : World F} {last : Option (LastGraph F)} :
      History S w last → S.world w' → w'.store = w.store → History S w' last
  | run {w : World F} {last : Option (LastGraph F)} {wt : Worktree} {args : MapArgs} (n : Nat) :
      History S w last → S.run wt args →
      (S.mayDie = false → (trace (World.apply ident) (mapRepo E wt args) w).1.length ≤ n) →
      History S (crash (World.apply ident) n (mapRepo E wt args) w)
        (lastAfter E ident wt args n w last)

end Events

/-! ## The files a rebuild writes -/

/-- The contents of the six files a rebuild writes. -/
structure GraphSide (F : Facts) where
  graph : Option (Graph F)
  transport : Option TransportInputs
  units : Option (List GraphUnit)
  crates : Option RustCrates
  cache : Option (OwnerStamped (FragmentCacheEntry F))
  index : Option (OwnerStamped Int)

def Store.graphSide (s : Store F) : GraphSide F where
  graph := s.graph.map Stamped.content
  transport := s.transport.map Stamped.content
  units := s.units.map Stamped.content
  crates := s.crates.map Stamped.content
  cache := s.cache.map Stamped.content
  index := s.index.map Stamped.content

def GraphSide.apply (op : WriteOp F) (g : GraphSide F) : GraphSide F :=
  match op with
  | .graph graph => { g with graph := some graph }
  | .transport inputs => { g with transport := inputs }
  | .units units => { g with units := units }
  | .crates crates => { g with crates := crates }
  | .cache entries => { g with cache := some entries }
  | .index entries => { g with index := some entries }
  | _ => g

/-- Whether a write is to one of the six. -/
def isGraphSide : WriteOp F → Bool
  | .graph _ | .transport _ | .units _ | .crates _ | .cache _ | .index _ => true
  | _ => false

theorem graphSide_apply (ident : Supply) (s : Store F) (op : WriteOp F) :
    (s.apply ident op).graphSide = s.graphSide.apply op := by
  cases op with
  | transport inputs => cases inputs <;> rfl
  | units units => cases units <;> rfl
  | crates crates => cases crates <;> rfl
  | _ => rfl

theorem graphSide_applyAll (ident : Supply) (ops : List (WriteOp F)) (w : World F) :
    (applyAll (World.apply ident) ops w).store.graphSide =
      applyAll GraphSide.apply ops w.store.graphSide := by
  induction ops generalizing w with
  | nil => rfl
  | cons op ops ih =>
      rw [applyAll_cons, applyAll_cons, ih, World.apply, graphSide_apply]

theorem GraphSide.applyAll_of_not {ops : List (WriteOp F)} (h : ∀ op ∈ ops, isGraphSide op = false)
    (g : GraphSide F) : applyAll GraphSide.apply ops g = g := by
  induction ops with
  | nil => rfl
  | cons op ops ih =>
      obtain ⟨hop, hops⟩ := List.forall_mem_cons.mp h
      have hkept : g.apply op = g := by cases op <;> first | rfl | cases hop
      rw [applyAll_cons, hkept, ih hops]

/-! ## Where a run is cut -/

section Cut

variable (E : Engine F) {ident : Supply} {wt : Worktree} {args : MapArgs} {w : World F} {p : Plan F}

/-- The writes before the first of the six. -/
def openingOps (wt : Worktree) (p : Plan F) : List (WriteOp F) :=
  markOps wt.owner ++ [.manifest (manifestValue p.head0 p.scope p.entries)]

/-- The writes to the six files. -/
def graphOps (wt : Worktree) (p : Plan F) (w : World F) : List (WriteOp F) :=
  if rebuildsIn p w then rebuildOps E wt.owner (mergedIn wt p w) (graphIn E wt p w) p.models
  else []

/-- The writes after the last of them. -/
def closingOps (ident : Supply) (wt : Worktree) (token : Str) (p : Plan F) (w : World F) :
    List (WriteOp F) :=
  publishOps wt.owner token p
    (applyAll (World.apply ident) (markOps wt.owner ++ artifactOps E wt p w) w).store

theorem commitOps_eq (token : Str) : commitOps E ident wt token p w =
    openingOps wt p ++ graphOps E wt p w ++ closingOps E ident wt token p w := by
  simp [commitOps, openingOps, graphOps, closingOps, artifactOps]

theorem openingOps_not_graphSide : ∀ op ∈ openingOps wt p, isGraphSide op = false := by
  intro op hop
  simp only [openingOps, markOps, List.mem_append, List.mem_singleton] at hop
  rcases hop with hop | rfl
  · split at hop <;> simp only [List.mem_cons, List.not_mem_nil, or_false] at hop
    · exact hop ▸ rfl
    · rcases hop with rfl | rfl <;> rfl
  · rfl

theorem closingOps_not_graphSide {token : Str} :
    ∀ op ∈ closingOps E ident wt token p w, isGraphSide op = false := by
  intro op hop
  simp only [closingOps, publishOps] at hop
  split at hop
  · simp at hop
  · simp only [List.mem_cons, List.not_mem_nil, or_false] at hop
    rcases hop with rfl | rfl <;> rfl

theorem isGraphWrite_of_not {op : WriteOp F} (h : isGraphSide op = false) :
    isGraphWrite op = false := by
  cases op <;> first | rfl | cases h

theorem isIndexWrite_of_not {op : WriteOp F} (h : isGraphSide op = false) :
    isIndexWrite op = false := by
  cases op <;> first | rfl | cases h

/-- A run writes at most one graph, the one of its plan. -/
theorem graph_of_mem_commitOps {token : Str} {graph : Graph F}
    (h : WriteOp.graph graph ∈ commitOps E ident wt token p w) :
    rebuildsIn p w = true ∧ graph = graphIn E wt p w := by
  rw [commitOps_eq, List.mem_append, List.mem_append] at h
  rcases h with (h | h) | h
  · cases openingOps_not_graphSide _ h
  · rw [graphOps] at h
    split at h
    · rename_i hrebuilds
      simp only [rebuildOps, List.mem_cons, reduceCtorEq, WriteOp.graph.injEq, List.not_mem_nil,
        or_false] at h
      exact ⟨hrebuilds, h⟩
    · simp at h
  · cases closingOps_not_graphSide E _ h

/-- **Where a cut falls.** What a run cut after `n` writes did to the six files is
what some prefix of the writes to them did. -/
theorem graphSide_cut (ident : Supply) (wt : Worktree) (p : Plan F) (w : World F) (token : Str)
    (n : Nat) :
    ∃ m, applyAll GraphSide.apply ((commitOps E ident wt token p w).take n) w.store.graphSide =
        applyAll GraphSide.apply ((graphOps E wt p w).take m) w.store.graphSide ∧
      ((commitOps E ident wt token p w).take n).any isGraphWrite =
        ((graphOps E wt p w).take m).any isGraphWrite ∧
      ((commitOps E ident wt token p w).take n).any isIndexWrite =
        ((graphOps E wt p w).take m).any isIndexWrite ∧
      ((commitOps E ident wt token p w).length ≤ n → (graphOps E wt p w).length ≤ m) := by
  have hopening := fun op (h : op ∈ (openingOps wt p).take n) =>
    openingOps_not_graphSide op (List.mem_of_mem_take h)
  have hclosing := fun op (h : op ∈ (closingOps E ident wt token p w).take
      (n - (openingOps wt p ++ graphOps E wt p w).length)) =>
    closingOps_not_graphSide E op (List.mem_of_mem_take h)
  refine ⟨n - (openingOps wt p).length, ?_, ?_, ?_, ?_⟩
  · rw [commitOps_eq, List.take_append, List.take_append, applyAll_append, applyAll_append,
      GraphSide.applyAll_of_not hopening, GraphSide.applyAll_of_not hclosing]
  · have hfirst : ((openingOps wt p).take n).any isGraphWrite = false :=
      List.any_eq_false.mpr fun op h => by simp [isGraphWrite_of_not (hopening op h)]
    have hlast := List.any_eq_false.mpr fun op h => by
      simpa using isGraphWrite_of_not (hclosing op h)
    rw [commitOps_eq, List.take_append, List.take_append, List.any_append, List.any_append, hfirst,
      hlast, Bool.or_false, Bool.false_or]
  · have hfirst : ((openingOps wt p).take n).any isIndexWrite = false :=
      List.any_eq_false.mpr fun op h => by simp [isIndexWrite_of_not (hopening op h)]
    have hlast := List.any_eq_false.mpr fun op h => by
      simpa using isIndexWrite_of_not (hclosing op h)
    rw [commitOps_eq, List.take_append, List.take_append, List.any_append, List.any_append, hfirst,
      hlast, Bool.or_false, Bool.false_or]
  · rw [commitOps_eq, List.length_append, List.length_append]
    omega

end Cut

/-! ## The induction -/

section Induction

variable {E : Engine F} {ident : Supply} {S : Setting F}

/-- A property of worlds and last graphs that edits keep and that every cut of every
planned run keeps holds throughout a history. -/
theorem History.invariant {I : World F → Option (LastGraph F) → Prop}
    (hstart : ∀ w, S.world w → w.store = Store.empty → I w none)
    (hedit : ∀ w w' last, I w last → S.world w' → w'.store = w.store → I w' last)
    (hrun : ∀ w last wt args p n, I w last → S.run wt args → Planned E wt args w p →
      (S.mayDie = false → (commitOps E ident wt args.token p w).length ≤ n) →
      I (applyAll (World.apply ident) ((commitOps E ident wt args.token p w).take n) w)
        (if ((commitOps E ident wt args.token p w).take n).any isGraphWrite then
          some ⟨w, p, ((commitOps E ident wt args.token p w).take n).any isIndexWrite⟩ else last))
    {w : World F} {last : Option (LastGraph F)} (h : History E ident S w last) : I w last := by
  induction h with
  | start hw hempty => exact hstart _ hw hempty
  | edit _ hw hstore ih => exact hedit _ _ _ ih hw hstore
  | @run w last wt args n _ hallowed hdies ih =>
      rw [crash, lastAfter, writesOf]
      cases hplan : (trace (World.apply ident) (planRun E wt args) w).2 with
      | none => simpa [trace_mapRepo_of_no_plan E hplan] using ih
      | some p =>
          rw [trace_mapRepo_of_plan E hplan] at hdies ⊢
          exact hrun w last wt args p n ih hallowed (planned_of_trace E hplan) hdies

end Induction

end Devscout
