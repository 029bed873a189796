/-
# Devscout.Semantic.Precedence -- the compiler's answer over the ladder's

After the ladder has pushed what it would for a reference, the layer is asked about the
reference's site. A confirmed answer undoes those pushes, with their bookkeeping, and
puts the one compiler-vouched edge in their place; anything else leaves them as they
are.

The key a site is asked by holds the records of every call of that member on that line.
The override speaks for all of them exactly when no record is silent beside records
that speak with one voice.
-/

import Devscout.Resolve.Edge
import Devscout.Semantic.Layer

namespace Devscout.Semantic

open Lib Resolve

structure Override where
  target : SemanticTarget
  /-- The ladder's own target when it is another one. -/
  displaced : Option Str

/-- The first other definition the ladder's edges name. -/
def displacedBy (target : SemanticTarget) : Edge → Option Str
  | .usesMember _ _ toDef _ _ _ _ _ _ => if toDef ≠ target.toDefId then some toDef else none
  | _ => none

/-- `decide`. -/
def decideOverride (outcome : LookupOutcome) (ladderPushed : List Edge) : Option Override :=
  match outcome with
  | .confirmed target => some ⟨target, ladderPushed.findSome? (displacedBy target)⟩
  | _ => none

/-- `record`. -/
def recordOverride (diag : SemanticDiagnostics) (ovr : Override) : SemanticDiagnostics where
  confirmed := diag.confirmed + 1
  disagreements := diag.disagreements + if ovr.displaced.isSome then 1 else 0

/-- What undoing one push takes off the guess counters. -/
def undoGuess (l : Ledger) : Edge → Option Ledger
  | .usesMember _ _ _ _ _ (some tier) _ _ _ => l.takeGuess tier
  | _ => some l

def isPreciseMember : Edge → Bool
  | .usesMember _ _ _ _ _ none _ _ _ => true
  | _ => false

/-- The edge an override puts in place. -/
def overrideEdge (file : Str) (r : FragRef) (target : SemanticTarget) : Edge :=
  .ofMemberSemantic file r.line target.toDefId target.toFile r.member .semantic
    target.overloadSignature

/-- `apply`; `preLen` is where this reference's pushes begin, no result a fault. -/
def apply (layer : Option SemanticLayer) (index : DefIndex) (preLen : Nat) (file : Str)
    (r : FragRef) (l : Ledger) : Option Ledger :=
  match layer, r.member with
  | some layer, some member =>
      let pushed := l.edges.drop preLen
      match decideOverride (layer.lookup index file r.line member r.argCount) pushed with
      | none => some l
      | some ovr => do
          let l' ← pushed.foldlM undoGuess { l with diag := recordOverride l.diag ovr }
          let left ← checkedSub l'.edgesByKind.usesMember (pushed.countP isPreciseMember)
          some
            { l' with
              edges := l.edges.take preLen ++ [overrideEdge file r ovr.target]
              edgesByKind := { l'.edgesByKind with usesMember := left + 1 } }
  | _, _ => some l

/-! ## What an override rests on -/

/-- The edges of the reference give way to the one naming the target. -/
structure ReplacedBy (l after : Ledger) (preLen : Nat) (file : Str) (r : FragRef)
    (target : SemanticTarget) : Prop where
  edges : after.edges = l.edges.take preLen ++ [overrideEdge file r target]
  counted : after.diag.confirmed = l.diag.confirmed + 1

/-- A record that says, by itself and in a complete compilation, that the target is meant. -/
structure Attests (layer : SemanticLayer) (index : DefIndex) (member : Str) (occ : RawOccurrence)
    (target : SemanticTarget) : Prop where
  confirmed : fromResolution occ.resolution = .confirmed
  complete : ∃ reason,
    layer.compilationState occ.compilationIdentity = some ("complete".toList, reason)
  names : (occ.targetType.bind fun raw => translateTypeId raw index).map
    (fun typeIdx => resolveTarget typeIdx member occ.targetOverloadSignature index) = some target

/-- A record is silent when it is unconfirmed or confirmed for no type of the graph. -/
def Silent (layer : SemanticLayer) (index : DefIndex) (occ : RawOccurrence) : Prop :=
  fromResolution occ.resolution ≠ .confirmed ∨
    (∃ state reason, layer.compilationState occ.compilationIdentity = some (state, reason) ∧
      state ≠ "complete".toList) ∨
    occ.targetType.bind (fun raw => translateTypeId raw index) = none

/-- The records that answer for a reference. -/
def answering (layer : SemanticLayer) (file : Str) (r : FragRef) (member : Str) :
    List RawOccurrence :=
  narrowed r.argCount (layer.atSite (file, r.line, member))

/-- An override for a reference speaks for every record of its site, and a silent one
leaves the ladder's edges standing. -/
structure SpeaksForSite (layer : SemanticLayer) (index : DefIndex) (file : Str) (r : FragRef) :
    Prop where
  replaced : ∀ (l after : Ledger) (preLen : Nat) (target : SemanticTarget) (member : Str),
    r.member = some member → apply (some layer) index preLen file r l = some after →
      ReplacedBy l after preLen file r target →
        ∀ occ ∈ answering layer file r member, Attests layer index member occ target
  standing : ∀ (l : Ledger) (preLen : Nat) (member : Str), r.member = some member →
    (∃ occ ∈ answering layer file r member, Silent layer index occ) →
      apply (some layer) index preLen file r l = some l

/-- Records that speak with one voice beside one that is silent, or beside one whose
compilation the artifact does not list. -/
def Mixed (layer : SemanticLayer) (index : DefIndex) (member : Str)
    (records : List RawOccurrence) : Prop :=
  ∃ target, (∃ occ ∈ records, layer.spoken index member occ = some target) ∧
    (∀ occ ∈ records, ∀ t, layer.spoken index member occ = some t → t = target) ∧
    ∃ occ ∈ records, layer.spoken index member occ = none ∨
      layer.compilationState occ.compilationIdentity = none

/-! ## One record -/

section Records

variable {layer : SemanticLayer} {index : DefIndex} {member : Str} {occ : RawOccurrence}
  {target : SemanticTarget}

theorem fromCompilationState_eq_none {state reason : Str}
    (h : fromCompilationState state reason = none) : state = "complete".toList := by
  unfold fromCompilationState at h
  split at h
  · assumption
  · split at h <;> cases h

/-- A compilation that is not complete confirms nothing. -/
theorem fromCompilationState_ne_confirmed (state reason : Str) :
    fromCompilationState state reason ≠ some .confirmed := by
  unfold fromCompilationState
  split
  · simp
  · split <;> simp

/-- What a confirmed record rests on: its own resolution, and its compilation where the
artifact lists it. -/
theorem uncertaintyOf_confirmed_iff :
    layer.uncertaintyOf occ = .confirmed ↔
      fromResolution occ.resolution = .confirmed ∧
        ∀ state reason, layer.compilationState occ.compilationIdentity = some (state, reason) →
          state = "complete".toList := by
  unfold SemanticLayer.uncertaintyOf
  cases hstate : layer.compilationState occ.compilationIdentity with
  | none => simp
  | some pair =>
      obtain ⟨state, reason⟩ := pair
      simp only
      cases hown : fromCompilationState state reason with
      | none =>
          refine ⟨fun h => ⟨h, fun s r hsr => ?_⟩, fun h => h.1⟩
          cases hsr
          exact fromCompilationState_eq_none hown
      | some u =>
          -- a compilation that is not complete never leaves it confirmed
          have hne : u ≠ .confirmed := fun h =>
            fromCompilationState_ne_confirmed state reason (hown.trans (congrArg some h))
          have hstate' : state ≠ "complete".toList := by
            rintro rfl
            simp [fromCompilationState] at hown
          constructor
          · intro h
            exact absurd h hne
          · intro h
            exact absurd (h.2 state reason rfl) hstate'

/-- A record with a listed compilation attests exactly what it speaks for. -/
theorem attests_iff_spoken (hlisted : layer.compilationState occ.compilationIdentity ≠ none) :
    Attests layer index member occ target ↔ layer.spoken index member occ = some target := by
  obtain ⟨⟨state, reason⟩, hstate⟩ := Option.ne_none_iff_exists'.mp hlisted
  unfold SemanticLayer.spoken
  constructor
  · intro h
    obtain ⟨reason', hcomplete⟩ := h.complete
    have hconfirmed : layer.uncertaintyOf occ = .confirmed := by
      refine uncertaintyOf_confirmed_iff.mpr ⟨h.confirmed, fun s r hsr => ?_⟩
      rw [hcomplete] at hsr
      cases hsr
      rfl
    rw [if_pos hconfirmed]
    exact h.names
  · intro h
    by_cases hconfirmed : layer.uncertaintyOf occ = .confirmed
    · rw [if_pos hconfirmed] at h
      obtain ⟨hown, hcomplete⟩ := uncertaintyOf_confirmed_iff.mp hconfirmed
      exact ⟨hown, ⟨reason, by rw [hstate, hcomplete state reason hstate]⟩, h⟩
    · rw [if_neg hconfirmed] at h
      cases h

/-- Silence is what the loop finds nothing to collect from. -/
theorem silent_iff_spoken :
    Silent layer index occ ↔ layer.spoken index member occ = none := by
  unfold Silent SemanticLayer.spoken
  by_cases hconfirmed : layer.uncertaintyOf occ = .confirmed
  · obtain ⟨hown, hcomplete⟩ := uncertaintyOf_confirmed_iff.mp hconfirmed
    rw [if_pos hconfirmed, Option.map_eq_none_iff]
    constructor
    · rintro (h | ⟨state, reason, hstate, hne⟩ | h)
      · exact absurd hown h
      · exact absurd (hcomplete state reason hstate) hne
      · exact h
    · intro h
      exact Or.inr (Or.inr h)
  · rw [if_neg hconfirmed]
    simp only [iff_true]
    by_contra hno
    push Not at hno
    exact hconfirmed (uncertaintyOf_confirmed_iff.mpr ⟨hno.1, hno.2.1⟩)

end Records

/-! ## One reference -/

section Reference

variable {layer : SemanticLayer} {index : DefIndex} {file : Str} {r : FragRef} {member : Str}
  {preLen : Nat} {l after : Ledger} {target : SemanticTarget}

/-- Without a confirmed outcome the ledger stays as it is. -/
theorem apply_of_not_confirmed (hmember : r.member = some member)
    (h : ∀ target, layer.lookup index file r.line member r.argCount ≠ .confirmed target) :
    apply (some layer) index preLen file r l = some l := by
  unfold apply
  rw [hmember]
  have hnone : decideOverride (layer.lookup index file r.line member r.argCount)
      (l.edges.drop preLen) = none := by
    unfold decideOverride
    split
    · rename_i target htarget
      exact absurd htarget (h target)
    · rfl
  simp only [hnone]

/-- A replacement tells that the lookup confirmed its target. -/
theorem confirmed_of_replaced (hmember : r.member = some member)
    (h : apply (some layer) index preLen file r l = some after)
    (hreplaced : ReplacedBy l after preLen file r target) :
    layer.lookup index file r.line member r.argCount = .confirmed target := by
  by_cases hconfirmed : ∃ t, layer.lookup index file r.line member r.argCount = .confirmed t
  · obtain ⟨t, ht⟩ := hconfirmed
    unfold apply at h
    rw [hmember] at h
    simp only [ht, decideOverride] at h
    obtain ⟨l', -, h⟩ := Option.bind_eq_some_iff.mp h
    obtain ⟨left, -, h⟩ := Option.bind_eq_some_iff.mp h
    cases h
    -- the edge put in carries the target that the layer confirmed
    have hedge : overrideEdge file r t = overrideEdge file r target := by
      simpa using hreplaced.edges
    simp only [overrideEdge, Edge.ofMemberSemantic, Edge.usesMember.injEq] at hedge
    obtain ⟨-, -, hid, hfile, -, -, -, -, hsig⟩ := hedge
    rw [ht]
    congr 1
    cases t
    cases target
    simp only at hid hfile hsig
    rw [hid, hfile, hsig]
  · push Not at hconfirmed
    rw [apply_of_not_confirmed hmember hconfirmed] at h
    cases h
    have := hreplaced.counted
    omega

/-- On an empty ledger a confirmed lookup replaces. -/
theorem apply_empty (hmember : r.member = some member)
    (h : layer.lookup index file r.line member r.argCount = .confirmed target) :
    ∃ after, apply (some layer) index 0 file r Ledger.empty = some after ∧
      ReplacedBy Ledger.empty after 0 file r target := by
  unfold apply
  rw [hmember]
  simp only [h, decideOverride]
  exact ⟨_, rfl, ⟨rfl, rfl⟩⟩

end Reference

/-- **When an override speaks for its site.** On a fresh artifact, exactly when the
records that answer for the reference are not mixed. -/
theorem override_speaks_iff (layer : SemanticLayer) (index : DefIndex) (file : Str) (r : FragRef) :
    SpeaksForSite layer index file r ↔
      ∀ member, r.member = some member → layer.freshness = .fresh →
        ¬Mixed layer index member (answering layer file r member) := by
  constructor
  · rintro hspeaks member hmember hfresh ⟨target, hsome, hall, occ, hocc, hsilent⟩
    obtain ⟨after, happly, hreplaced⟩ :=
      apply_empty hmember (lookup_confirmed_iff.mpr ⟨hfresh, hsome, hall⟩)
    have hattests := hspeaks.replaced _ _ 0 target member hmember happly hreplaced occ hocc
    obtain ⟨reason, hcomplete⟩ := hattests.complete
    have hlisted : layer.compilationState occ.compilationIdentity ≠ none := by simp [hcomplete]
    -- an occurrence that attests the target is neither silent nor of no compilation
    rcases hsilent with hnone | hnone
    · rw [(attests_iff_spoken hlisted).mp hattests] at hnone
      cases hnone
    · exact hlisted hnone
  · intro hunmixed
    refine ⟨fun l after preLen target member hmember happly hreplaced occ hocc => ?_,
      fun l preLen member hmember hsilent => ?_⟩
    · obtain ⟨hfresh, hsome, hall⟩ :=
        lookup_confirmed_iff.mp (confirmed_of_replaced hmember happly hreplaced)
      have hboth : ¬(layer.spoken index member occ = none ∨
          layer.compilationState occ.compilationIdentity = none) :=
        fun h => hunmixed member hmember hfresh ⟨target, hsome, hall, occ, hocc, h⟩
      rw [not_or] at hboth
      obtain ⟨t, ht⟩ := Option.ne_none_iff_exists'.mp hboth.1
      rw [hall occ hocc t ht] at ht
      exact (attests_iff_spoken hboth.2).mpr ht
    · refine apply_of_not_confirmed hmember fun target hconfirmed => ?_
      obtain ⟨hfresh, hsome, hall⟩ := lookup_confirmed_iff.mp hconfirmed
      obtain ⟨occ, hocc, hquiet⟩ := hsilent
      exact hunmixed member hmember hfresh
        ⟨target, hsome, hall, occ, hocc, Or.inl (silent_iff_spoken.mp hquiet)⟩

/-! ## Two calls on one line -/

/-- `Ns.Widget`, declared once. -/
def widgetIndex : DefIndex :=
  buildDefIndex [("Widget.cs".toList,
    { defs := [{ id := "Ns.Widget".toList, name := "Widget".toList, namespace_ := "Ns".toList
                 kind := "class".toList, line := 1 }] })]

/-- A `Render` on line 3 of `Caller.cs`, resolved as told. -/
def renderRecord (resolution : String) (targetType : Option String) : RawOccurrence where
  file := "Caller.cs".toList
  nameLine := 3
  resolution := resolution.toList
  targetType := targetType.map String.toList
  targetMember := some "Render".toList
  compilationIdentity := .string "App".toList
  targetOverloadSignature := none

/-- `widget.Render(); stranger.Render();`: one call bound to `Ns.Widget`, the other to a
type of another assembly. -/
def twoCalls : SemanticLayer where
  freshness := .fresh
  occurrences := [renderRecord "confirmed" (some "Ns.Widget"),
    renderRecord "confirmed" (some "Elsewhere.Stranger")]
  compilations := [⟨.string "App".toList, "complete".toList, [], []⟩]

def renderRef : FragRef :=
  { kind := .usesMember, name := "stranger".toList, member := some "Render".toList, line := 3 }

theorem answering_twoCalls :
    answering twoCalls "Caller.cs".toList renderRef "Render".toList = twoCalls.occurrences := rfl

/-- The second call's edges give way to the first call's target. -/
theorem stranger_overridden :
    ¬SpeaksForSite twoCalls widgetIndex "Caller.cs".toList renderRef := by
  intro h
  have hconfirmed : twoCalls.lookup widgetIndex "Caller.cs".toList 3 "Render".toList none =
      .confirmed ⟨"Ns.Widget".toList, "Widget.cs".toList, none⟩ := by
    refine lookup_confirmed_iff.mpr ⟨rfl, ?_⟩
    show (∃ occ ∈ twoCalls.occurrences, _) ∧ ∀ occ ∈ twoCalls.occurrences, _
    refine ⟨⟨_, List.mem_cons_self, by decide +kernel⟩, fun occ hocc t ht => ?_⟩
    -- the second record names a definition that is not in the index, and says nothing
    rcases List.mem_cons.mp hocc with rfl | hocc
    · have hfirst : twoCalls.spoken widgetIndex "Render".toList
          (renderRecord "confirmed" (some "Ns.Widget")) =
            some ⟨"Ns.Widget".toList, "Widget.cs".toList, none⟩ := by decide +kernel
      exact (Option.some.inj (hfirst.symm.trans ht)).symm
    · have hsecond : twoCalls.spoken widgetIndex "Render".toList
          (renderRecord "confirmed" (some "Elsewhere.Stranger")) = none := by decide +kernel
      rw [List.mem_singleton.mp hocc, hsecond] at ht
      cases ht
  have hmember : renderRef.member = some "Render".toList := rfl
  obtain ⟨after, happly, hreplaced⟩ := apply_empty (r := renderRef) hmember hconfirmed
  have hstands := h.standing Ledger.empty 0 "Render".toList rfl
    ⟨renderRecord "confirmed" (some "Elsewhere.Stranger"), by rw [answering_twoCalls]; simp [twoCalls],
      Or.inr (Or.inr (by decide +kernel))⟩
  rw [happly] at hstands
  cases hstands
  have hcounted := hreplaced.counted
  simp [Ledger.empty] at hcounted

end Devscout.Semantic
