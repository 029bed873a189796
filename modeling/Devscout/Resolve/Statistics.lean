/-
# Devscout.Resolve.Statistics -- the counters are the counts

Every counter of the ledger has the edges it stands for, and at every point of a resolve
it is their number. A push adds one edge and bumps its counter; an override takes a whole
slice of pushes off again, each with its bookkeeping; the duplicate pass takes off one
guess at a time. The edges a subtraction stands for are always still there when it is
made, so no counter can go below zero.

The compiler's own discoveries are the one population with no counter in the ledger:
they are counted when they are projected, and no later pass drops one.
-/

import Devscout.Resolve.Assembly

namespace Devscout.Resolve

open Lib Semantic

/-! ## Counters and what they count -/

/-- The kinds with a counter of their own. -/
inductive EdgeKind where
  | inherits
  | usesType
  | imports
  | usesMember
  | ctorDi
  | implements
  | overrides
  | busHop
  deriving DecidableEq

namespace Edge

/-- The counted kind; an ambiguity has none. -/
def kind : Edge → Option EdgeKind
  | inherits .. => some .inherits
  | usesType .. => some .usesType
  | usesMember .. => some .usesMember
  | imports .. => some .imports
  | ambiguous .. => none
  | ctorDi .. => some .ctorDi
  | implements .. => some .implements
  | overrides .. => some .overrides
  | busHop .. => some .busHop

def isAmbiguous (e : Edge) : Bool := e.kind.isNone

def isDiscovered (e : Edge) : Bool := e.provenance == some .semanticDiscovered

end Edge

/-- A counter of the kind record; absent hops are none. -/
def EdgesByKind.get (n : EdgesByKind) : EdgeKind → Nat
  | .inherits => n.inherits
  | .usesType => n.usesType
  | .imports => n.imports
  | .usesMember => n.usesMember
  | .ctorDi => n.ctorDi
  | .implements => n.implements
  | .overrides => n.overrides
  | .busHop => n.busHop.getD 0

def HeuristicByTier.get (n : HeuristicByTier) : HeuristicTier → Nat
  | .ext => n.ext
  | .guess => n.guess

/-- A counter of the ledger. -/
inductive Counter where
  | kind (k : EdgeKind)
  | ambiguous
  | heuristic
  | tier (t : HeuristicTier)
  deriving DecidableEq

/-- The edges a counter stands for: those of a kind are neither guesses nor discovered. -/
def Counter.counts : Counter → Edge → Bool
  | .kind k, e => e.kind == some k && !e.isHeuristic && !e.isDiscovered
  | .ambiguous, e => e.isAmbiguous
  | .heuristic, e => e.isHeuristic
  | .tier t, e => e.tierOf == some t

def Ledger.reading (l : Ledger) : Counter → Nat
  | .kind k => l.edgesByKind.get k
  | .ambiguous => l.ambiguousCount
  | .heuristic => l.heuristicEdgeCount
  | .tier t => l.heuristicByTier.get t

/-- Every counter reads the number of its edges, and an edge is a guess exactly when it
carries a tier. -/
structure Balanced (l : Ledger) : Prop where
  counters : ∀ c, l.reading c = l.edges.countP c.counts
  tagged : ∀ e ∈ l.edges, e.isHeuristic = e.tierOf.isSome

/-- What holds while references and their dispatch are resolved: nothing is discovered
yet, and no hop is counted. -/
structure Resolving (l : Ledger) : Prop extends Balanced l where
  undiscovered : ∀ e ∈ l.edges, e.isDiscovered = false
  noHops : l.edgesByKind.busHop = none

/-! ## One edge -/

/-- A precise edge of a kind, not a discovered one. -/
structure Plain (k : EdgeKind) (e : Edge) : Prop where
  kind : e.kind = some k
  precise : e.isHeuristic = false
  untiered : e.tierOf = none
  undiscovered : e.isDiscovered = false

/-- A plain edge is counted under its kind and nowhere else. -/
theorem Plain.counts {k : EdgeKind} {e : Edge} (h : Plain k e) (c : Counter) :
    c.counts e = decide (c = .kind k) := by
  cases c with
  | kind j =>
      simp only [Counter.counts, h.kind, h.precise, h.undiscovered, Bool.not_false, Bool.and_true,
        Counter.kind.injEq]
      by_cases hjk : j = k
      · simp [hjk]
      · simp [hjk, Ne.symm hjk]
  | ambiguous => simp [Counter.counts, Edge.isAmbiguous, h.kind]
  | heuristic => simp [Counter.counts, h.precise]
  | tier t => simp [Counter.counts, h.untiered]

/-- Plain edges of one kind move that kind's counter and no other. -/
theorem countP_plain {k : EdgeKind} {es : List Edge} (h : ∀ e ∈ es, Plain k e) (c : Counter) :
    es.countP c.counts = if c = .kind k then es.length else 0 := by
  by_cases hc : c = .kind k
  · rw [if_pos hc, List.countP_eq_length]
    intro e he
    rw [(h e he).counts, hc]
    exact decide_eq_true rfl
  · rw [if_neg hc, List.countP_eq_zero]
    intro e he
    rw [(h e he).counts]
    simpa using hc

theorem Plain.tagged {k : EdgeKind} {e : Edge} (h : Plain k e) : e.isHeuristic = e.tierOf.isSome := by
  rw [h.precise, h.untiered]
  rfl

/-- Exactly the guesses have a key to be dropped by. -/
theorem isSome_heuristicEdgeKey (e : Edge) : (heuristicEdgeKey e).isSome = e.isHeuristic := by
  cases e with
  | inherits _ _ _ _ heuristic => cases heuristic <;> rfl
  | usesType _ _ _ _ heuristic => cases heuristic <;> rfl
  | usesMember _ _ _ _ heuristic _ _ _ _ => cases heuristic <;> rfl
  | _ => rfl

/-- A tiered edge is a `uses-member` edge. -/
theorem kind_of_tierOf {e : Edge} {t : HeuristicTier} (h : e.tierOf = some t) :
    e.kind = some .usesMember := by
  cases e <;> simp_all [Edge.tierOf, Edge.kind]

/-! ## Pushes -/

theorem balanced_empty : Resolving Ledger.empty where
  counters := by
    rintro (k | _ | _ | t)
    · cases k <;> rfl
    · rfl
    · rfl
    · cases t <;> rfl
  tagged := by simp [Ledger.empty]
  undiscovered := by simp [Ledger.empty]
  noHops := rfl

/-- Edges pushed with as much on every counter keep the balance. -/
theorem Balanced.push {l l' : Ledger} {es : List Edge} (h : Balanced l)
    (hedges : l'.edges = l.edges ++ es)
    (hreading : ∀ c, l'.reading c = l.reading c + es.countP c.counts)
    (htagged : ∀ e ∈ es, e.isHeuristic = e.tierOf.isSome) : Balanced l' where
  counters c := by rw [hreading, h.counters, hedges, List.countP_append]
  tagged e he := by
    rw [hedges] at he
    rcases List.mem_append.mp he with hold | hnew
    · exact h.tagged e hold
    · exact htagged e hnew

theorem Resolving.push {l l' : Ledger} {es : List Edge} (h : Resolving l)
    (hedges : l'.edges = l.edges ++ es)
    (hreading : ∀ c, l'.reading c = l.reading c + es.countP c.counts)
    (htagged : ∀ e ∈ es, e.isHeuristic = e.tierOf.isSome)
    (hundiscovered : ∀ e ∈ es, e.isDiscovered = false)
    (hnoHops : l'.edgesByKind.busHop = none) : Resolving l' where
  toBalanced := h.toBalanced.push hedges hreading htagged
  undiscovered e he := by
    rw [hedges] at he
    rcases List.mem_append.mp he with hold | hnew
    · exact h.undiscovered e hold
    · exact hundiscovered e hnew
  noHops := hnoHops

/-- No edge pushed and no counter moved. -/
theorem Resolving.pushNothing {l l' : Ledger} (h : Resolving l) (hedges : l'.edges = l.edges)
    (hreading : ∀ c, l'.reading c = l.reading c) (hnoHops : l'.edgesByKind.busHop = none) :
    Resolving l' where
  counters c := by rw [hreading, h.counters, hedges]
  tagged := hedges ▸ h.tagged
  undiscovered := hedges ▸ h.undiscovered
  noHops := hnoHops

/-- One plain edge pushed with one on its own counter. -/
theorem Resolving.pushPlain {l l' : Ledger} {k : EdgeKind} {e : Edge} (h : Resolving l)
    (he : Plain k e) (hedges : l'.edges = l.edges ++ [e])
    (hreading : ∀ c, l'.reading c = l.reading c + if c = .kind k then 1 else 0)
    (hnoHops : l'.edgesByKind.busHop = none) : Resolving l' := by
  have hall : ∀ e' ∈ [e], Plain k e' := by
    intro e' he'
    rw [List.mem_singleton.mp he']
    exact he
  refine h.push hedges (fun c => ?_) (fun e' he' => (hall e' he').tagged)
    (fun e' he' => (hall e' he').undiscovered) hnoHops
  rw [hreading, countP_plain hall]
  rfl

/-- One plain edge pushed where only the counters by kind move, its own by one. -/
theorem Resolving.pushKind {l : Ledger} {k : EdgeKind} {e : Edge} {kinds : EdgesByKind}
    (h : Resolving l) (he : Plain k e)
    (hkinds : ∀ j, kinds.get j = l.edgesByKind.get j + if j = k then 1 else 0)
    (hnoHops : kinds.busHop = none) :
    Resolving { l with edges := l.edges ++ [e], edgesByKind := kinds } := by
  refine h.pushPlain he rfl (fun c => ?_) hnoHops
  cases c with
  | kind j =>
      simp only [Counter.kind.injEq]
      exact hkinds j
  | ambiguous => rfl
  | heuristic => rfl
  | tier t => rfl

section Pushes

variable {index : DefIndex} {site : Site} {r : FragRef} {l : Ledger}

theorem pushImports_resolving (h : Resolving l) : Resolving (pushImports site r l) :=
  h.pushKind (k := .imports) ⟨rfl, rfl, rfl, rfl⟩ (fun j => by cases j <;> rfl) h.noHops

theorem pushCtorDi_resolving {resolve : Resolver} {contexts : Contexts} (h : Resolving l) :
    Resolving (pushCtorDi resolve index contexts site r l) :=
  h.pushKind (k := .ctorDi) ⟨rfl, rfl, rfl, rfl⟩ (fun j => by cases j <;> rfl) h.noHops

/-- A type reference pushes a plain edge, an ambiguity, or nothing. -/
theorem pushTypeEdge_resolving {resolve : Resolver} {projects : Option Projects}
    (h : Resolving l) : Resolving (pushTypeEdge resolve projects index site r l) := by
  unfold pushTypeEdge
  split
  · split
    · exact h.pushKind (k := .inherits) ⟨rfl, rfl, rfl, rfl⟩ (fun j => by cases j <;> rfl) h.noHops
    · exact h.pushKind (k := .usesType) ⟨rfl, rfl, rfl, rfl⟩ (fun j => by cases j <;> rfl) h.noHops
  · refine h.push rfl (fun c => ?_) (by simp [Edge.isHeuristic, Edge.tierOf])
      (by simp [Edge.isDiscovered, Edge.provenance]) h.noHops
    rcases c with k | _ | _ | t
    · cases k <;> rfl
    all_goals rfl
  · refine h.pushNothing rfl (fun c => ?_) h.noHops
    rcases c with k | _ | _ | t <;> rfl

/-- A member push bumps its kind when precise, both guess counters when tiered. -/
theorem pushMember_resolving (target : Nat × Option HeuristicTier) (h : Resolving l) :
    Resolving (pushMember index site r l target) := by
  obtain ⟨idx, tier⟩ := target
  have hedges : (pushMember index site r l (idx, tier)).edges = l.edges ++
      [.ofMember site.file r.line (index.def_ idx).id (index.def_ idx).file r.member tier] := by
    rcases tier with _ | _ | _ <;> rfl
  refine h.push hedges (fun c => ?_) ?_ ?_ ?_
  · rcases tier with _ | _ | _
    all_goals
      rcases c with k | _ | _ | t
      · cases k <;> rfl
      · rfl
      · rfl
      · cases t <;> rfl
  · simp [Edge.ofMember, Edge.isHeuristic, Edge.tierOf]
  · simp [Edge.ofMember, Edge.isDiscovered, Edge.provenance]
  · rcases tier with _ | _ | _ <;> exact h.noHops

/-- The pushes of one reference: the edges before them stay, and all are of members. -/
theorem foldl_pushMember (index : DefIndex) (site : Site) (r : FragRef)
    (targets : List (Nat × Option HeuristicTier)) (h : Resolving l) :
    Resolving (targets.foldl (pushMember index site r) l) ∧
      ∃ pushed, (targets.foldl (pushMember index site r) l).edges = l.edges ++ pushed ∧
        ∀ e ∈ pushed, e.kind = some .usesMember := by
  induction targets generalizing l with
  | nil => exact ⟨h, [], by simp, by simp⟩
  | cons target targets ih =>
      obtain ⟨hresolving, pushed, hedges, hkind⟩ := ih (pushMember_resolving target h)
      have hone : ∃ e, (pushMember index site r l target).edges = l.edges ++ [e] ∧
          e.kind = some .usesMember := by
        obtain ⟨idx, tier⟩ := target
        rcases tier with _ | _ | _ <;> exact ⟨_, rfl, rfl⟩
      obtain ⟨e, he, hekind⟩ := hone
      refine ⟨hresolving, e :: pushed, ?_, ?_⟩
      · show (targets.foldl (pushMember index site r) (pushMember index site r l target)).edges = _
        rw [hedges, he, List.append_assoc]
        rfl
      · intro e' he'
        rcases List.mem_cons.mp he' with rfl | hmem
        · exact hekind
        · exact hkind e' hmem

end Pushes

/-! ## Subtractions -/

theorem checkedSub_of_le {a b : Nat} (h : b ≤ a) : checkedSub a b = some (a - b) := if_pos h

/-- The counters an undone push is taken off by itself; its kind is taken off in one go. -/
def Counter.ofGuesses : Counter → Bool
  | .heuristic => true
  | .tier _ => true
  | _ => false

/-- The guesses among some edges taken off their counters, and nothing else touched. -/
structure TakenOff (l l' : Ledger) (es : List Edge) : Prop where
  edges : l'.edges = l.edges
  edgesByKind : l'.edgesByKind = l.edgesByKind
  ambiguous : l'.ambiguousCount = l.ambiguousCount
  guesses : ∀ c, c.ofGuesses = true → l.reading c = l'.reading c + es.countP c.counts

theorem TakenOff.cons {l l' l'' : Ledger} {e : Edge} {es : List Edge} (h : TakenOff l l' [e])
    (h' : TakenOff l' l'' es) : TakenOff l l'' (e :: es) where
  edges := h'.edges.trans h.edges
  edgesByKind := h'.edgesByKind.trans h.edgesByKind
  ambiguous := h'.ambiguous.trans h.ambiguous
  guesses c hc := by
    have hone := h.guesses c hc
    have hrest := h'.guesses c hc
    have hcons : (e :: es).countP c.counts = [e].countP c.counts + es.countP c.counts := by
      rw [← List.countP_append]
      rfl
    omega

theorem takeOne_of_le {n : HeuristicByTier} {t : HeuristicTier} (h : 1 ≤ n.get t) :
    ∃ n', n.takeOne t = some n' ∧ ∀ u, n.get u = n'.get u + if t = u then 1 else 0 := by
  cases t with
  | ext =>
      have h : 1 ≤ n.ext := h
      refine ⟨{ n with ext := n.ext - 1 }, ?_, ?_⟩
      · show (checkedSub n.ext 1).map _ = _
        rw [checkedSub_of_le h]
        rfl
      · rintro (_ | _)
        · exact (Nat.sub_add_cancel h).symm
        · rfl
  | guess =>
      have h : 1 ≤ n.guess := h
      refine ⟨{ n with guess := n.guess - 1 }, ?_, ?_⟩
      · show (checkedSub n.guess 1).map _ = _
        rw [checkedSub_of_le h]
        rfl
      · rintro (_ | _)
        · rfl
        · exact (Nat.sub_add_cancel h).symm

/-- One guess comes off both its counters when both have it. -/
theorem takeGuess_takenOff {l : Ledger} {e : Edge} {t : HeuristicTier} (htier : e.tierOf = some t)
    (htagged : e.isHeuristic = e.tierOf.isSome)
    (hle : ∀ c, c.ofGuesses = true → [e].countP c.counts ≤ l.reading c) :
    ∃ l', l.takeGuess t = some l' ∧ TakenOff l l' [e] := by
  have hheuristic : e.isHeuristic = true := by rw [htagged, htier]; rfl
  have hcount : 1 ≤ l.heuristicEdgeCount := by
    have := hle .heuristic rfl
    simpa [Counter.counts, hheuristic, Ledger.reading] using this
  have hsplit : 1 ≤ l.heuristicByTier.get t := by
    have := hle (.tier t) rfl
    simpa [Counter.counts, htier, Ledger.reading] using this
  obtain ⟨split, htake, hget⟩ := takeOne_of_le hsplit
  unfold Ledger.takeGuess
  rw [checkedSub_of_le hcount, htake]
  refine ⟨_, rfl, rfl, rfl, rfl, ?_⟩
  -- two counters go down, and the edge is counted by no other
  rintro (k | _ | _ | u) hc
  · cases hc
  · cases hc
  · show l.heuristicEdgeCount = l.heuristicEdgeCount - 1 + _
    simp only [List.countP_singleton, Counter.counts, hheuristic, if_true]
    omega
  · show l.heuristicByTier.get u = split.get u + _
    rw [hget u]
    simp [List.countP_singleton, Counter.counts, htier]

theorem undoGuess_eq (l : Ledger) (e : Edge) :
    undoGuess l e = (e.tierOf.map l.takeGuess).getD (some l) := by
  cases e with
  | usesMember _ _ _ _ _ tier _ _ _ => cases tier <;> rfl
  | _ => rfl

theorem undoGuess_takenOff {l : Ledger} {e : Edge} (htagged : e.isHeuristic = e.tierOf.isSome)
    (hle : ∀ c, c.ofGuesses = true → [e].countP c.counts ≤ l.reading c) :
    ∃ l', undoGuess l e = some l' ∧ TakenOff l l' [e] := by
  rw [undoGuess_eq]
  rcases htier : e.tierOf with _ | t
  · refine ⟨l, rfl, rfl, rfl, rfl, ?_⟩
    rw [htier] at htagged
    rintro (k | _ | _ | u) hc
    · cases hc
    · cases hc
    · simp [Counter.counts, htagged]
    · simp [Counter.counts, htier]
  · exact takeGuess_takenOff htier htagged hle

/-- Undoing pushes that are on the counters takes off exactly their guesses. -/
theorem foldlM_undoGuess {pushed : List Edge} {l : Ledger}
    (htagged : ∀ e ∈ pushed, e.isHeuristic = e.tierOf.isSome)
    (hle : ∀ c, c.ofGuesses = true → pushed.countP c.counts ≤ l.reading c) :
    ∃ l', pushed.foldlM undoGuess l = some l' ∧ TakenOff l l' pushed := by
  induction pushed generalizing l with
  | nil => exact ⟨l, rfl, rfl, rfl, rfl, fun c _ => by simp⟩
  | cons e pushed ih =>
      have hcons : ∀ c : Counter, (e :: pushed).countP c.counts =
          [e].countP c.counts + pushed.countP c.counts := by
        intro c
        rw [← List.countP_append]
        rfl
      obtain ⟨l', hundo, hone⟩ := undoGuess_takenOff (l := l) (htagged e List.mem_cons_self)
        (fun c hc => by have := hle c hc; rw [hcons] at this; omega)
      obtain ⟨l'', hrest, hall⟩ := ih (l := l') (fun e' he' => htagged e' (List.mem_cons_of_mem _ he'))
        (fun c hc => by
          have hbound := hle c hc
          have hgot := hone.guesses c hc
          rw [hcons] at hbound
          omega)
      refine ⟨l'', ?_, hone.cons hall⟩
      rw [List.foldlM_cons, hundo]
      exact hrest

/-! ## The compiler's override -/

/-- A precise member push, while nothing is discovered, is one on the member counter. -/
theorem isPreciseMember_eq_counts {e : Edge} (htagged : e.isHeuristic = e.tierOf.isSome)
    (hundiscovered : e.isDiscovered = false) :
    isPreciseMember e = (Counter.kind .usesMember).counts e := by
  cases e with
  | usesMember _ _ _ _ heuristic tier _ source _ =>
      cases tier with
      | none =>
          have hprecise : heuristic = false := htagged
          subst hprecise
          show true = (true && !Edge.isDiscovered _)
          rw [hundiscovered]
          rfl
      | some t =>
          have hguess : heuristic = true := htagged
          subst hguess
          rfl
  | _ => rfl

/-- An edge of members is on no other kind's counter and no ambiguity. -/
theorem counts_of_kind_usesMember {e : Edge} (h : e.kind = some .usesMember) {c : Counter}
    (hother : c.ofGuesses = false) (hne : c ≠ .kind .usesMember) : c.counts e = false := by
  cases c with
  | kind k =>
      have hk : k ≠ .usesMember := fun hk => hne (by rw [hk])
      simp [Counter.counts, h, Ne.symm hk]
  | ambiguous => simp [Counter.counts, Edge.isAmbiguous, h]
  | _ => cases hother

/-- The ledger with a reference's pushes taken off. -/
def Ledger.strip (l : Ledger) (before : List Edge) (usesMember : Nat) : Ledger :=
  { l with edges := before, edgesByKind := { l.edgesByKind with usesMember } }

/-- What a reference pushed is all of members and all counted, so it can be taken off. -/
theorem Resolving.strip {l l' : Ledger} {before pushed : List Edge} (h : Resolving l)
    (hedges : l.edges = before ++ pushed) (hmembers : ∀ e ∈ pushed, e.kind = some .usesMember)
    (hoff : TakenOff l l' pushed) :
    pushed.countP isPreciseMember ≤ l'.edgesByKind.usesMember ∧
      Resolving (l'.strip before (l'.edgesByKind.usesMember - pushed.countP isPreciseMember)) := by
  have hmem : ∀ e ∈ pushed, e ∈ l.edges := by
    intro e he
    rw [hedges]
    exact List.mem_append_right _ he
  have hbefore : ∀ e ∈ before, e ∈ l.edges := by
    intro e he
    rw [hedges]
    exact List.mem_append_left _ he
  have hcounts : ∀ c, l.reading c = before.countP c.counts + pushed.countP c.counts := by
    intro c
    rw [h.counters, hedges, List.countP_append]
  have hprecise : pushed.countP isPreciseMember = pushed.countP (Counter.kind .usesMember).counts :=
    List.countP_congr fun e he => by
      rw [isPreciseMember_eq_counts (h.tagged e (hmem e he)) (h.undiscovered e (hmem e he))]
  have hmember : l'.edgesByKind.usesMember =
      before.countP (Counter.kind .usesMember).counts + pushed.countP isPreciseMember := by
    rw [hoff.edgesByKind, hprecise]
    exact hcounts (.kind .usesMember)
  have hother : ∀ c : Counter, c.ofGuesses = false → c ≠ .kind .usesMember →
      l.reading c = before.countP c.counts := by
    intro c hguess hne
    have hnone : pushed.countP c.counts = 0 := by
      rw [List.countP_eq_zero]
      intro e he
      rw [counts_of_kind_usesMember (hmembers e he) hguess hne]
      exact Bool.false_ne_true
    rw [hcounts, hnone, Nat.add_zero]
  refine ⟨by omega, ⟨⟨fun c => ?_, fun e he => h.tagged e (hbefore e he)⟩,
    fun e he => h.undiscovered e (hbefore e he), ?_⟩⟩
  · -- the member counter loses its precise pushes, the guess counters theirs, no other any
    show (l'.strip before _).reading c = before.countP c.counts
    rcases hguess : c.ofGuesses with _ | _
    · by_cases hc : c = .kind .usesMember
      · subst hc
        show l'.edgesByKind.usesMember - pushed.countP isPreciseMember = _
        omega
      · rw [← hother c hguess hc]
        rcases c with k | _ | _ | t
        · rw [show l.reading (.kind k) = l'.edgesByKind.get k by rw [hoff.edgesByKind]; rfl]
          cases k <;> first | rfl | exact absurd rfl hc
        · exact hoff.ambiguous
        all_goals cases hguess
    · have hgot := hoff.guesses c hguess
      have hsplit := hcounts c
      have hsame : (l'.strip before (l'.edgesByKind.usesMember -
          pushed.countP isPreciseMember)).reading c = l'.reading c := by
        rcases c with k | _ | _ | t
        · cases hguess
        all_goals rfl
      omega
  · show l'.edgesByKind.busHop = none
    rw [hoff.edgesByKind]
    exact h.noHops

/-- **The override balances.** The reference's pushes come off and the one edge in their
place is counted. -/
theorem apply_resolving (layer : Option SemanticLayer) (index : DefIndex) (file : Str) (r : FragRef)
    {l : Ledger} {before pushed : List Edge} (h : Resolving l) (hedges : l.edges = before ++ pushed)
    (hmembers : ∀ e ∈ pushed, e.kind = some .usesMember) :
    ∃ l', apply layer index before.length file r l = some l' ∧ Resolving l' := by
  have hdrop : l.edges.drop before.length = pushed := by rw [hedges, List.drop_left]
  have htake : l.edges.take before.length = before := by rw [hedges, List.take_left]
  unfold apply
  split
  · rename_i layer member hmember
    simp only [hdrop, htake]
    split
    · exact ⟨l, rfl, h⟩
    · rename_i ovr hovr
      have hrecorded : Resolving { l with diag := recordOverride l.diag ovr } :=
        h.pushNothing rfl (fun c => by cases c <;> rfl) h.noHops
      have htagged : ∀ e ∈ pushed, e.isHeuristic = e.tierOf.isSome := by
        intro e he
        refine h.tagged e ?_
        rw [hedges]
        exact List.mem_append_right _ he
      -- the guesses pushed are among those counted, so none can go below zero
      have hguesses : ∀ c, c.ofGuesses = true →
          pushed.countP c.counts ≤ Ledger.reading { l with diag := recordOverride l.diag ovr } c := by
        intro c _
        rw [hrecorded.counters, hedges, List.countP_append]
        omega
      obtain ⟨l', hundo, hoff⟩ := foldlM_undoGuess htagged hguesses
      obtain ⟨hleft, hstripped⟩ := hrecorded.strip hedges hmembers hoff
      rw [hundo]
      simp only [bind, Option.bind, checkedSub_of_le hleft]
      exact ⟨_, rfl, hstripped.pushKind (k := .usesMember) (e := overrideEdge file r ovr.target)
        ⟨rfl, rfl, rfl, rfl⟩ (fun j => by cases j <;> rfl) hstripped.noHops⟩
  · exact ⟨l, rfl, h⟩

/-! ## The loop -/

/-- A run over a list whose every step goes through goes through. -/
theorem exists_foldlM {α β : Type} {f : β → α → Option β} {P : β → Prop}
    (hstep : ∀ s x, P s → ∃ s', f s x = some s' ∧ P s') (xs : List α) {s : β} (hs : P s) :
    ∃ s', xs.foldlM f s = some s' ∧ P s' := by
  induction xs generalizing s with
  | nil => exact ⟨s, rfl, hs⟩
  | cons x xs ih =>
      obtain ⟨s', hstepped, hs'⟩ := hstep s x hs
      obtain ⟨s'', hrest, hs''⟩ := ih hs'
      refine ⟨s'', ?_, hs''⟩
      rw [List.foldlM_cons, hstepped]
      exact hrest

section Loop

variable {resolve : Resolver} {q : MemberQuestions} {projects : Option Projects}
  {index : DefIndex} {contexts : Contexts} {layer : Option SemanticLayer}

/-- One reference keeps the balance and faults nowhere. -/
theorem resolveReference_resolving (site : Site) (s : LoopState) (r : FragRef) (h : Resolving s.1) :
    ∃ s', resolveReference resolve q projects index contexts layer site s r = some s' ∧
      Resolving s'.1 := by
  unfold resolveReference
  cases r.kind with
  | imports => exact ⟨_, rfl, pushImports_resolving h⟩
  | usesMember =>
      obtain ⟨hpushed, pushed, hedges, hmembers⟩ := foldl_pushMember index
        { site with ns := r.namespace_.getD [] } r
        (memberTargets resolve q projects index contexts { site with ns := r.namespace_.getD [] } r) h
      obtain ⟨l, happly, hl⟩ := apply_resolving layer index site.file r hpushed hedges hmembers
      simp only [happly, bind, Option.bind]
      exact ⟨_, rfl, hl⟩
  | ctorParam => exact ⟨_, rfl, pushCtorDi_resolving h⟩
  | inherits => exact ⟨_, rfl, pushTypeEdge_resolving h⟩
  | usesType => exact ⟨_, rfl, pushTypeEdge_resolving h⟩

theorem resolveFile_resolving (resolve : Resolver) (q : MemberQuestions) (projects : Option Projects)
    (index : DefIndex) (contexts : Contexts) (layer : Option SemanticLayer) (s : LoopState) (f : Str × Fragment) (h : Resolving s.1) :
    ∃ s', resolveFile resolve q projects index contexts layer s f = some s' ∧ Resolving s'.1 := by
  unfold resolveFile
  split
  · exact ⟨s, rfl, h⟩
  · exact exists_foldlM (P := fun s => Resolving s.1)
      (fun s r hs => resolveReference_resolving _ s r hs) f.2.refs h

end Loop

/-! ## Dispatch and hops -/

/-- The two counts of a member dispatch and the edges they stand for. -/
structure DispatchBalanced (m : MemberDispatch) : Prop where
  plain : ∀ e ∈ m.edges, Plain .implements e ∨ Plain .overrides e
  implementsCount : m.edges.countP (Counter.kind .implements).counts = m.implementsCount
  overridesCount : m.edges.countP (Counter.kind .overrides).counts = m.overridesCount

section Dispatch

variable {resolve : Resolver} {fragments : Fragments} {index : DefIndex} {contexts : Contexts}

theorem implementsEdge_plain (reg : ResolvedRegistration) (member : Option Str) :
    Plain .implements (implementsEdge index reg member) := ⟨rfl, rfl, rfl, rfl⟩

theorem resolveMemberImplements_plain (reg : ResolvedRegistration) {e : Edge}
    (he : e ∈ resolveMemberImplements index reg) : Plain .implements e := by
  obtain ⟨member, -, rfl⟩ := List.mem_map.mp he
  exact implementsEdge_plain reg (some member)

theorem resolveMemberOverrides_plain (implIdx : Nat) {e : Edge}
    (he : e ∈ resolveMemberOverrides index contexts implIdx) : Plain .overrides e := by
  obtain ⟨member, -, hmember⟩ := List.mem_filterMap.mp he
  unfold memberOverride at hmember
  split at hmember
  · cases hmember
  · split at hmember
    · cases hmember
      exact ⟨rfl, rfl, rfl, rfl⟩
    · cases hmember

/-- One registration adds as much to its counts as edges. -/
theorem dispatchRegistration_balanced {m : MemberDispatch} (reg : ResolvedRegistration)
    (h : DispatchBalanced m) : DispatchBalanced (dispatchRegistration index contexts m reg) := by
  have himplements : ∀ c : Counter, (resolveMemberImplements index reg).countP c.counts =
      if c = .kind .implements then (resolveMemberImplements index reg).length else 0 :=
    countP_plain fun _ he => resolveMemberImplements_plain reg he
  have hoverrides : ∀ c : Counter,
      (resolveMemberOverrides index contexts reg.implementation).countP c.counts =
        if c = .kind .overrides then (resolveMemberOverrides index contexts reg.implementation).length
        else 0 :=
    countP_plain fun _ he => resolveMemberOverrides_plain reg.implementation he
  unfold dispatchRegistration
  dsimp only
  -- without overrides to look for, only the implementations are added
  split
  · refine ⟨fun e he => ?_, ?_, ?_⟩
    · rcases List.mem_append.mp he with hold | hnew
      · exact h.plain e hold
      · exact Or.inl (resolveMemberImplements_plain reg hnew)
    · simp [List.countP_append, h.implementsCount, himplements]
    · simp [List.countP_append, h.overridesCount, himplements]
  · refine ⟨fun e he => ?_, ?_, ?_⟩
    · rcases List.mem_append.mp he with hold | hnew
      · rcases List.mem_append.mp hold with hold | hnew
        · exact h.plain e hold
        · exact Or.inl (resolveMemberImplements_plain reg hnew)
      · exact Or.inr (resolveMemberOverrides_plain reg.implementation hnew)
    · simp [List.countP_append, h.implementsCount, himplements, hoverrides]
    · simp [List.countP_append, h.overridesCount, himplements, hoverrides]

theorem resolveMemberDispatch_balanced (index : DefIndex) (contexts : Contexts)
    (registrations : List ResolvedRegistration) :
    DispatchBalanced (resolveMemberDispatch index contexts registrations) := by
  unfold resolveMemberDispatch
  refine List.foldlRecOn registrations _ ⟨by simp, rfl, rfl⟩ fun m h reg _ => ?_
  exact dispatchRegistration_balanced reg h

/-- The edges of a member dispatch are on its two counters and on no other. -/
theorem DispatchBalanced.countP {m : MemberDispatch} (h : DispatchBalanced m) (c : Counter) :
    m.edges.countP c.counts =
      if c = .kind .implements then m.implementsCount
      else if c = .kind .overrides then m.overridesCount else 0 := by
  split
  · rename_i hc
    rw [hc, h.implementsCount]
  · rename_i himplements
    split
    · rename_i hc
      rw [hc, h.overridesCount]
    · rename_i hoverrides
      rw [List.countP_eq_zero]
      intro e he
      rcases h.plain e he with hplain | hplain
      · rw [hplain.counts]
        simpa using himplements
      · rw [hplain.counts]
        simpa using hoverrides

theorem appendDispatchEdges_resolving (resolve : Resolver) (fragments : Fragments)
    (index : DefIndex) (contexts : Contexts) {l : Ledger} (h : Resolving l) :
    Resolving (appendDispatchEdges resolve fragments index contexts l) := by
  have hmembers := resolveMemberDispatch_balanced index contexts
    (resolveRegistrations resolve fragments contexts)
  have hregistrations : ∀ e ∈ (resolveRegistrations resolve fragments contexts).map
      (fun reg => implementsEdge index reg none), Plain .implements e := by
    intro e he
    obtain ⟨reg, -, rfl⟩ := List.mem_map.mp he
    exact implementsEdge_plain reg none
  have hplain : ∀ e ∈ (resolveRegistrations resolve fragments contexts).map
      (fun reg => implementsEdge index reg none) ++
        (resolveMemberDispatch index contexts (resolveRegistrations resolve fragments contexts)).edges,
      Plain .implements e ∨ Plain .overrides e := by
    intro e he
    rcases List.mem_append.mp he with hreg | hmember
    · exact Or.inl (hregistrations e hreg)
    · exact hmembers.plain e hmember
  refine h.push (List.append_assoc _ _ _) (fun c => ?_) (fun e he => ?_) (fun e he => ?_) h.noHops
  · rw [List.countP_append, countP_plain hregistrations, hmembers.countP]
    rcases c with k | _ | _ | t
    · cases k
      case implements => exact Nat.add_assoc _ _ _
      all_goals simp [Ledger.reading, appendDispatchEdges, EdgesByKind.get]
    all_goals rfl
  · rcases hplain e he with hplain | hplain <;> exact hplain.tagged
  · rcases hplain e he with hplain | hplain <;> exact hplain.undiscovered

/-- The hops are counted in one go, and none was counted before. -/
theorem appendBusEdges_balanced (resolve : Resolver) (fragments : Fragments) (index : DefIndex)
    (contexts : Contexts) {l : Ledger} (h : Resolving l) :
    Balanced (appendBusEdges resolve fragments index contexts l).1 ∧
      ∀ e ∈ (appendBusEdges resolve fragments index contexts l).1.edges, e.isDiscovered = false := by
  unfold appendBusEdges
  dsimp only
  split
  · exact ⟨h.toBalanced, h.undiscovered⟩
  · have hplain : ∀ e ∈ busHops resolve fragments index contexts, Plain .busHop e := by
      intro e he
      obtain ⟨publish, -, he⟩ := List.mem_flatMap.mp he
      obtain ⟨consumer, -, rfl⟩ := List.mem_map.mp he
      exact ⟨rfl, rfl, rfl, rfl⟩
    constructor
    · refine h.toBalanced.push rfl (fun c => ?_) (fun e he => (hplain e he).tagged)
      rw [countP_plain hplain]
      rcases c with k | _ | _ | t
      · cases k
        -- the counter was absent, and is now the number of hops
        case busHop => simp [Ledger.reading, EdgesByKind.get, h.noHops]
        all_goals rfl
      all_goals rfl
    · intro e he
      rcases List.mem_append.mp he with hold | hnew
      · exact h.undiscovered e hold
      · exact (hplain e hnew).undiscovered

end Dispatch

/-! ## Discoveries -/

/-- What holds from the projection on: no discovery is a guess, and their number is the
one reported. -/
structure Finished (discovered : Nat) (l : Ledger) : Prop extends Balanced l where
  precise : ∀ e ∈ l.edges, e.isDiscovered = true → e.isHeuristic = false
  discoveries : discovered = l.edges.countP Edge.isDiscovered

/-- The compiler's own sites are on no counter. -/
theorem counts_discoveredEdge (key : SiteKey) (target : SemanticTarget) (c : Counter) :
    c.counts (discoveredEdge key target) = false := by
  cases c with
  | kind k => cases k <;> rfl
  | _ => rfl

/-- Discoveries are added beside the counted edges and counted by themselves. -/
theorem finish_finished (layer : Option SemanticLayer) (index : DefIndex) (sites : List SiteKey)
    {l : Ledger} (h : Balanced l) (hundiscovered : ∀ e ∈ l.edges, e.isDiscovered = false) :
    Finished (((finish layer index sites l).2.map SemanticStats.discovered).getD 0)
      (finish layer index sites l).1 := by
  have hnone : l.edges.countP Edge.isDiscovered = 0 := by
    rw [List.countP_eq_zero]
    intro e he
    rw [hundiscovered e he]
    exact Bool.false_ne_true
  unfold finish
  cases layer with
  | none =>
      refine ⟨h, fun e he hdiscovered => ?_, hnone.symm⟩
      rw [hundiscovered e he] at hdiscovered
      cases hdiscovered
  | some layer =>
      dsimp only
      refine ⟨h.push rfl (fun c => ?_) (fun e he => ?_), fun e he hdiscovered => ?_, ?_⟩
      · -- a discovered edge is counted under no kind
        have hzero : (project layer index sites).countP c.counts = 0 := by
          rw [List.countP_eq_zero]
          intro e he
          obtain ⟨key, target, rfl⟩ := provenance_of_mem_project he
          rw [counts_discoveredEdge]
          exact Bool.false_ne_true
        rw [hzero]
        cases c <;> rfl
      · obtain ⟨key, target, rfl⟩ := provenance_of_mem_project he
        rfl
      · rcases List.mem_append.mp he with hold | hnew
        · rw [hundiscovered e hold] at hdiscovered
          cases hdiscovered
        · obtain ⟨key, target, rfl⟩ := provenance_of_mem_project hnew
          rfl
      · show (project layer index sites).length = _
        rw [List.countP_append, hnone, Nat.zero_add, eq_comm, List.countP_eq_length]
        intro e he
        obtain ⟨key, target, rfl⟩ := provenance_of_mem_project he
        rfl

/-! ## Repeated guesses -/

/-- What a pass stands at: its counters over the edges kept and those to come. -/
def DedupState.ahead (s : DedupState) (rest : List Edge) : Ledger :=
  { s.ledger with edges := s.kept ++ rest }

/-- A guess is on the guess counters only. -/
theorem counts_of_isHeuristic {e : Edge} {t : HeuristicTier} (hheuristic : e.isHeuristic = true)
    (htier : e.tierOf = some t) {c : Counter} (hother : c.ofGuesses = false) :
    c.counts e = false := by
  cases c with
  | kind k => simp [Counter.counts, hheuristic]
  | ambiguous => simp [Counter.counts, Edge.isAmbiguous, kind_of_tierOf htier]
  | _ => cases hother

/-- The edges of a list with one in the middle, counted apart. -/
theorem countP_middle {p : Edge → Bool} (kept rest : List Edge) (e : Edge) :
    (kept ++ e :: rest).countP p = (kept ++ rest).countP p + [e].countP p := by
  simp only [List.countP_append, List.countP_cons, List.countP_nil]
  omega

/-- A repeated guess goes, off its counters and out of the edges. -/
theorem Finished.drop {n : Nat} {s : DedupState} {e : Edge} {rest : List Edge} {t : HeuristicTier}
    {l' : Ledger} (h : Finished n (s.ahead (e :: rest))) (hheuristic : e.isHeuristic = true)
    (htier : e.tierOf = some t) (hoff : TakenOff s.ledger l' [e]) :
    Finished n (DedupState.ahead { s with ledger := l' } rest) := by
  have hmem : ∀ e' ∈ s.kept ++ rest, e' ∈ s.kept ++ e :: rest := by
    intro e' he'
    rw [List.mem_append] at he' ⊢
    exact he'.imp_right (List.mem_cons_of_mem e)
  refine ⟨⟨fun c => ?_, fun e' he' => h.tagged e' (hmem e' he')⟩,
    fun e' he' => h.precise e' (hmem e' he'), ?_⟩
  · have hbefore : s.ledger.reading c = (s.kept ++ e :: rest).countP c.counts := h.counters c
    rw [countP_middle] at hbefore
    show l'.reading c = (s.kept ++ rest).countP c.counts
    rcases hguess : c.ofGuesses with _ | _
    · have hnot := counts_of_isHeuristic hheuristic htier hguess
      have hsame : l'.reading c = s.ledger.reading c := by
        rcases c with k | _ | _ | u
        · show l'.edgesByKind.get k = _
          rw [hoff.edgesByKind]
          rfl
        · exact hoff.ambiguous
        all_goals cases hguess
      rw [hsame, hbefore]
      simp [hnot]
    · have hgot := hoff.guesses c hguess
      omega
  · have hcount : n = (s.kept ++ e :: rest).countP Edge.isDiscovered := h.discoveries
    have hnot : e.isDiscovered = false := by
      by_contra hdiscovered
      have := h.precise e (List.mem_append_right _ List.mem_cons_self)
        (by simpa using hdiscovered)
      rw [hheuristic] at this
      cases this
    rw [hcount, countP_middle]
    simp [hnot, DedupState.ahead]

/-- One edge of the pass: kept as it is, or taken off its guess counters. -/
theorem dedupEdge_finished {n : Nat} {s : DedupState} {e : Edge} {rest : List Edge}
    (h : Finished n (s.ahead (e :: rest))) :
    ∃ s', dedupEdge s e = some s' ∧ Finished n (s'.ahead rest) := by
  have hkept : ∀ seen, Finished n (DedupState.ahead ⟨s.kept ++ [e], seen, s.ledger⟩ rest) := by
    intro seen
    have hsame : DedupState.ahead ⟨s.kept ++ [e], seen, s.ledger⟩ rest = s.ahead (e :: rest) := by
      simp [DedupState.ahead]
    rw [hsame]
    exact h
  unfold dedupEdge
  split
  · exact ⟨_, rfl, hkept s.seen⟩
  · rename_i key hkey
    split
    · have hheuristic : e.isHeuristic = true := by
        rw [← isSome_heuristicEdgeKey, hkey]
        rfl
      have htagged : e.isHeuristic = e.tierOf.isSome :=
        h.tagged e (List.mem_append_right _ List.mem_cons_self)
      obtain ⟨t, htier⟩ := Option.isSome_iff_exists.mp (htagged.symm.trans hheuristic)
      have hle : ∀ c, c.ofGuesses = true → [e].countP c.counts ≤ s.ledger.reading c := by
        intro c _
        have hreading : s.ledger.reading c = (s.kept ++ e :: rest).countP c.counts := h.counters c
        rw [countP_middle] at hreading
        omega
      obtain ⟨l', htake, hoff⟩ := takeGuess_takenOff htier htagged hle
      refine ⟨{ s with ledger := l' }, ?_, h.drop hheuristic htier hoff⟩
      unfold Ledger.takeGuess at htake
      obtain ⟨count, hcount, htake⟩ := Option.bind_eq_some_iff.mp htake
      obtain ⟨split, hsplit, htake⟩ := Option.bind_eq_some_iff.mp htake
      cases htake
      simp only [htier, hcount, hsplit, bind, Option.bind]
    · exact ⟨_, rfl, hkept _⟩

/-- The pass goes through and leaves what it found balanced. -/
theorem dedupGuesses_finished {n : Nat} {l : Ledger} (h : Finished n l) :
    ∃ l', dedupGuesses l = some l' ∧ Finished n l' := by
  have hrun : ∀ (rest : List Edge) (s : DedupState), Finished n (s.ahead rest) →
      ∃ s', rest.foldlM dedupEdge s = some s' ∧ Finished n (s'.ahead []) := by
    intro rest
    induction rest with
    | nil => exact fun s hs => ⟨s, rfl, hs⟩
    | cons e rest ih =>
        intro s hs
        obtain ⟨s', hstep, hs'⟩ := dedupEdge_finished hs
        obtain ⟨s'', hrest, hs''⟩ := ih s' hs'
        refine ⟨s'', ?_, hs''⟩
        rw [List.foldlM_cons, hstep]
        exact hrest
  obtain ⟨s, hfold, hs⟩ := hrun l.edges ⟨[], [], l⟩ h
  unfold dedupGuesses
  rw [hfold]
  refine ⟨_, rfl, ?_⟩
  simpa [DedupState.ahead] using hs

/-! ## The statistics -/

/-- The statistics of a graph are those of its edges. -/
structure StatisticsMatch (g : Graph) : Prop where
  edgesByKind : ∀ k, g.stats.edgesByKind.get k =
    g.edges.countP fun e => e.kind == some k && !e.isHeuristic && !e.isDiscovered
  heuristic : g.stats.heuristicEdgeCount = g.edges.countP Edge.isHeuristic
  byTier : g.stats.heuristicEdgeCount = g.stats.heuristicByTier.ext + g.stats.heuristicByTier.guess
  ambiguous : g.stats.ambiguousCount = g.edges.countP Edge.isAmbiguous
  discovered : (g.stats.semantic.map SemanticStats.discovered).getD 0 =
    g.edges.countP Edge.isDiscovered

/-- Among tagged edges the guesses are those of the two tiers. -/
theorem countP_isHeuristic {es : List Edge} (h : ∀ e ∈ es, e.isHeuristic = e.tierOf.isSome) :
    es.countP Edge.isHeuristic =
      es.countP (Counter.tier .ext).counts + es.countP (Counter.tier .guess).counts := by
  induction es with
  | nil => rfl
  | cons e es ih =>
      have hrest := ih fun e' he' => h e' (List.mem_cons_of_mem e he')
      have htag := h e List.mem_cons_self
      simp only [List.countP_cons, Counter.counts, htag] at hrest ⊢
      rcases Option.eq_none_or_eq_some e.tierOf with htier | ⟨t, htier⟩
      · simp [htier, hrest]
      · cases t <;> simp [htier, hrest] <;> omega

/-- A ledger after the last pass, read as a graph. -/
theorem StatisticsMatch.of_finished {l : Ledger} {semantic : Option SemanticStats}
    (h : Finished ((semantic.map SemanticStats.discovered).getD 0) l) (derived : Option Bool) :
    StatisticsMatch ⟨l.edges, ⟨l.edgesByKind, l.ambiguousCount, l.unresolvedExternal,
      l.heuristicEdgeCount, l.heuristicByTier, derived, semantic⟩⟩ where
  edgesByKind k := h.counters (.kind k)
  heuristic := h.counters .heuristic
  byTier := by
    have hext : l.heuristicByTier.ext = _ := h.counters (.tier .ext)
    have hguess : l.heuristicByTier.guess = _ := h.counters (.tier .guess)
    have hall : l.heuristicEdgeCount = l.edges.countP Edge.isHeuristic := h.counters .heuristic
    show l.heuristicEdgeCount = l.heuristicByTier.ext + l.heuristicByTier.guess
    rw [hall, countP_isHeuristic h.tagged, hext, hguess]
  ambiguous := h.counters .ambiguous
  discovered := h.discoveries

/-- **Statistics match the edges.** For every resolver, every set of member answers, all
fragments, projects and layers, a resolve goes through with no counter below zero and
each counter is the number of its edges. -/
theorem statistics_match (resolver : DefIndex → Contexts → Resolver)
    (questions : DefIndex → Contexts → MemberQuestions) (fragments : Fragments)
    (projects : Option Projects) (layer : Option SemanticLayer) :
    ∃ g, resolveGraphWithModel resolver questions fragments projects layer = some g ∧
      StatisticsMatch g := by
  unfold resolveGraphWithModel
  dsimp only
  generalize buildDefIndex fragments = index
  generalize buildFileContexts fragments projects index = contexts
  obtain ⟨⟨l, sites⟩, hloop, hl⟩ := exists_foldlM (P := fun s : LoopState => Resolving s.1)
    (fun s f hs => resolveFile_resolving (resolver index contexts) (questions index contexts)
      projects index contexts layer s f hs)
    fragments (s := (Ledger.empty, [])) balanced_empty
  have hdispatched :=
    appendDispatchEdges_resolving (resolver index contexts) fragments index contexts hl
  obtain ⟨hhops, hundiscovered⟩ :=
    appendBusEdges_balanced (resolver index contexts) fragments index contexts hdispatched
  obtain ⟨l', hdedup, hfinished⟩ := dedupGuesses_finished
    (finish_finished layer index sites hhops hundiscovered)
  simp only [hloop, hdedup, bind, Option.bind]
  exact ⟨_, rfl, .of_finished hfinished _⟩

end Devscout.Resolve
