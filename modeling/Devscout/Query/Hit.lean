/-
# Devscout.Query.Hit -- what the walk notes about a file it reaches

In one round of the walk a file can be reached many times, by edges of many kinds. A hit
counts them, keeps the lowest line for each kind with the edge that explains it, and keeps
track of the message bus: whether some way to the file crossed no bus hop, and the smallest
bus hop by which a way entered. A finished hit becomes the entry of a visited file.
-/

import Devscout.Lib.Marks
import Devscout.Query.GraphIndex
import Mathlib

namespace Devscout.Query

open Lib

/-! ## Why a file was reached -/

inductive Why where
  | inherits
  | usesType
  | usesMemberPrecise
  | usesMemberExt
  | usesMemberGuess
  | ctorDi
  | imports
  | implements
  | overrides
  | busHop
  | call
  | jsxUse
  | dispatch
  | import_
  deriving DecidableEq

/-- `why_for_uses_member`. -/
def whyForUsesMember (heuristic : Bool) (tier : Option Resolve.HeuristicTier) : Why :=
  if heuristic then
    match tier with
    | some .ext => .usesMemberExt
    | _ => .usesMemberGuess
  else .usesMemberPrecise

/-- `why_for_edge`; it is never asked about an injection, which no table it reads holds. -/
def whyForEdge : Edge → Why
  | .inherits .. => .inherits
  | .usesType .. => .usesType
  | .usesMember _ _ _ _ heuristic tier => whyForUsesMember heuristic tier
  | .imports .. => .imports
  | .implements .. => .implements
  | .overrides .. => .overrides
  | .busHop .. => .busHop
  | .call .. => .call
  | .jsxUse .. => .jsxUse
  | .dispatch .. => .dispatch
  | .import_ .. => .import_
  | .ambiguous origin .. =>
      if origin = "inherits".toList then .inherits
      else if origin = "uses-type".toList then .usesType
      else .usesMemberPrecise
  | .ctorDi .. => .ctorDi

/-! ## Bus origins -/

/-- The identity of a bus hop. -/
structure BusOrigin where
  file : Str
  line : Nat
  message : Str
  toDef : Str
  toFile : Str
  deriving DecidableEq

/-- The fields in the order they are compared in. -/
def BusOrigin.key (o : BusOrigin) : Str ×ₗ Nat ×ₗ Str ×ₗ Str ×ₗ Str :=
  toLex (o.file, toLex (o.line, toLex (o.message, toLex (o.toDef, o.toFile))))

theorem BusOrigin.key_injective : Function.Injective BusOrigin.key := by
  intro a b h
  cases a
  cases b
  simp only [BusOrigin.key, EmbeddingLike.apply_eq_iff_eq, Prod.mk.injEq] at h
  obtain ⟨rfl, rfl, rfl, rfl, rfl⟩ := h
  rfl

instance : LinearOrder BusOrigin := LinearOrder.lift' BusOrigin.key BusOrigin.key_injective

/-! ## Hits -/

/-- The lowest line for each kind, `0` when the kind did not occur. -/
structure KindLines where
  direct : Nat := 0
  directAmb : Nat := 0
  ctorDi : Nat := 0
  heuristic : Nat := 0
  iface : Nat := 0
  bus : Nat := 0
  deriving DecidableEq

/-- The edge behind each of those lines, by what it explains. -/
structure WhyTrack where
  direct : Option Why := none
  directAmb : Option Why := none
  heuristic : Option Why := none
  iface : Option Why := none
  bus : Option Why := none
  deriving DecidableEq

structure Hit where
  viaCount : Nat := 0
  ambiguousCount : Nat := 0
  heuristicCount : Nat := 0
  extCount : Nat := 0
  symbols : List Str := []
  ifaceVia : List Str := []
  lines : KindLines := {}
  whyTrack : WhyTrack := {}
  hasNonBusPath : Bool := false
  busOrigin : Option BusOrigin := none
  deriving DecidableEq

/-- Insertion into a set that keeps the order of first insertions. -/
def insertSeq (seen : List Str) (x : Str) : List Str := if x ∈ seen then seen else seen ++ [x]

/-- `note_line`. -/
def noteLine (slot line : Nat) : Nat := if 0 < line ∧ (slot = 0 ∨ line < slot) then line else slot

/-- The lowest line stays, and no line is none. -/
example : noteLine 7 3 = 3 ∧ noteLine 3 7 = 3 ∧ noteLine 3 0 = 3 := by decide +kernel

/-- `note_line_why`: a line and the edge that explains it, set together. -/
def noteLineWhy (slot : Nat) (whySlot : Option Why) (line : Nat) (why : Why) : Nat × Option Why :=
  if 0 < line ∧ (slot = 0 ∨ line < slot) then (line, some why) else (slot, whySlot)

namespace Hit

/-- `note_bus_origin`: the lowest one stays. -/
def noteBusOrigin (h : Hit) (origin : BusOrigin) : Hit :=
  match h.busOrigin with
  | none => { h with busOrigin := some origin }
  | some existing => if origin < existing then { h with busOrigin := some origin } else h

/-- `note_taint`. -/
def noteTaint (h : Hit) (origin : Option BusOrigin) : Hit :=
  match origin with
  | some o => h.noteBusOrigin o
  | none => { h with hasNonBusPath := true }

/-- `note_direct`. -/
def noteDirect (h : Hit) (line : Nat) (e : Edge) (origin : Option BusOrigin) : Hit :=
  let noted := noteLineWhy h.lines.direct h.whyTrack.direct line (whyForEdge e)
  { h with
    lines := { h.lines with direct := noted.1 }
    whyTrack := { h.whyTrack with direct := noted.2 } }.noteTaint origin

/-- `note_direct_amb`. -/
def noteDirectAmb (h : Hit) (line : Nat) (e : Edge) (origin : Option BusOrigin) : Hit :=
  let noted := noteLineWhy h.lines.directAmb h.whyTrack.directAmb line (whyForEdge e)
  { h with
    lines := { h.lines with directAmb := noted.1 }
    whyTrack := { h.whyTrack with directAmb := noted.2 } }.noteTaint origin

/-- `note_iface`. -/
def noteIface (h : Hit) (line : Nat) (e : Edge) (origin : Option BusOrigin) : Hit :=
  let noted := noteLineWhy h.lines.iface h.whyTrack.iface line (whyForEdge e)
  { h with
    lines := { h.lines with iface := noted.1 }
    whyTrack := { h.whyTrack with iface := noted.2 } }.noteTaint origin

/-- `note_heuristic`. -/
def noteHeuristic (h : Hit) (line : Nat) (e : Edge) (origin : Option BusOrigin) : Hit :=
  let noted := noteLineWhy h.lines.heuristic h.whyTrack.heuristic line (whyForEdge e)
  { h with
    lines := { h.lines with heuristic := noted.1 }
    whyTrack := { h.whyTrack with heuristic := noted.2 } }.noteTaint origin

/-- `note_bus`: the hop's own identity, whatever the way to it carried. -/
def noteBus (h : Hit) (line : Nat) (e : Edge) : Hit :=
  let noted := noteLineWhy h.lines.bus h.whyTrack.bus line (whyForEdge e)
  let h := { h with
    lines := { h.lines with bus := noted.1 }
    whyTrack := { h.whyTrack with bus := noted.2 } }
  match e with
  | .busHop fromFile fromLine message toDef toFile =>
      h.noteBusOrigin ⟨fromFile, fromLine, message, toDef, toFile⟩
  | _ => h

/-- `note_kind_edge`. -/
def noteKindEdge (h : Hit) (line : Nat) (e : Edge) (origin : Option BusOrigin) : Hit :=
  match e with
  | .busHop .. => h.noteBus line e
  | _ => h.noteDirect line e origin

/-- Reached by guesses only. -/
def onlyGuessed (h : Hit) : Bool := h.viaCount == 0 && h.ambiguousCount == 0

end Hit

/-! ## Touches -/

/-- How an edge reaches a file. -/
inductive Note where
  | kindEdge (line : Nat) (e : Edge)
  | ambiguous (line : Nat) (e : Edge)
  | ctorDi (line : Nat) (iface : Str)
  | iface (line : Nat) (e : Edge) (iface : Str)
  | heuristic (line : Nat) (e : Edge)
  deriving DecidableEq

/-- One reach of a file from a definition of the frontier: the bus hop that definition was
itself only reachable through, and the file-level arcs the reach adds. -/
structure Touch where
  file : Str
  symbol : Str
  origin : Option BusOrigin
  note : Note
  arcs : List (Str × Str)
  deriving DecidableEq

/-- What the walk does to the hit of the file a touch reaches. -/
def Hit.take (h : Hit) (t : Touch) : Hit :=
  match t.note with
  | .kindEdge line e =>
      { h with
        viaCount := h.viaCount + 1
        symbols := insertSeq h.symbols t.symbol }.noteKindEdge line e t.origin
  | .ambiguous line e =>
      { h with ambiguousCount := h.ambiguousCount + 1 }.noteDirectAmb line e t.origin
  | .ctorDi line iface =>
      { h with
        viaCount := h.viaCount + 1
        symbols := insertSeq h.symbols t.symbol
        ifaceVia := insertSeq h.ifaceVia (iface ++ " (ctor-di)".toList)
        lines := { h.lines with ctorDi := noteLine h.lines.ctorDi line } }.noteTaint t.origin
  | .iface line e iface =>
      { h with
        viaCount := h.viaCount + 1
        symbols := insertSeq h.symbols t.symbol
        ifaceVia := insertSeq h.ifaceVia iface }.noteIface line e t.origin
  | .heuristic line e =>
      { h with
        heuristicCount := h.heuristicCount + 1
        extCount := if e.tierOf = some Resolve.HeuristicTier.ext then h.extCount + 1 else h.extCount
        symbols := insertSeq h.symbols t.symbol }.noteHeuristic line e t.origin

/-! ## Visited files -/

structure VisitedEntry where
  hop : Nat
  viaCount : Nat
  ambiguousCount : Nat
  heuristicCount : Nat
  extCount : Nat
  symbols : List Str
  ifaceVia : List Str
  lines : KindLines
  infra : Bool
  why : Why
  busOnly : Bool
  busOrigin : Option BusOrigin
  deriving DecidableEq

/-- `primary_why`. -/
def primaryWhy (lines : KindLines) (track : WhyTrack) : Why :=
  if lines.ctorDi ≠ 0 then .ctorDi
  else if lines.direct ≠ 0 then track.direct.getD .usesMemberPrecise
  else if lines.directAmb ≠ 0 then track.directAmb.getD .usesMemberPrecise
  else if lines.iface ≠ 0 then track.iface.getD .usesMemberPrecise
  else if lines.heuristic ≠ 0 ∨ track.heuristic.isSome then track.heuristic.getD .usesMemberGuess
  else track.bus.getD .busHop

/-- `build_visited_entry`. -/
def buildVisitedEntry (hop : Nat) (infra : Bool) (h : Hit) : VisitedEntry where
  hop := hop
  viaCount := h.viaCount
  ambiguousCount := h.ambiguousCount
  heuristicCount := h.heuristicCount
  extCount := h.extCount
  symbols := h.symbols
  ifaceVia := h.ifaceVia
  lines := h.lines
  infra := infra
  why := primaryWhy h.lines h.whyTrack
  busOnly := !h.hasNonBusPath
  busOrigin := if h.hasNonBusPath then none else h.busOrigin

/-! ## What a hit adds up to -/

/-- Everything but a guess is solid. -/
def Note.solid : Note → Bool
  | .heuristic .. => false
  | _ => true

/-- The identity of an edge that is a bus hop. -/
def busIdentity : Edge → Option BusOrigin
  | .busHop fromFile fromLine message toDef toFile => some ⟨fromFile, fromLine, message, toDef, toFile⟩
  | _ => none

/-- The bus hop that a touch is. -/
def Touch.crossed (t : Touch) : Option BusOrigin :=
  match t.note with
  | .kindEdge _ e => busIdentity e
  | _ => none

/-- The mark a touch leaves: the bus hop it is, or the one its definition carried. -/
def Touch.mark (t : Touch) : Option BusOrigin := t.crossed.or t.origin

section Folded

variable {h : Hit} {t : Touch} {ts : List Touch} {o : BusOrigin} {origin : Option BusOrigin}

@[simp] theorem Hit.onlyGuessed_noteBusOrigin : (h.noteBusOrigin o).onlyGuessed = h.onlyGuessed := by
  unfold noteBusOrigin
  split
  · rfl
  · split <;> rfl

@[simp] theorem Hit.onlyGuessed_noteTaint : (h.noteTaint origin).onlyGuessed = h.onlyGuessed := by
  cases origin with
  | none => rfl
  | some o => exact onlyGuessed_noteBusOrigin

theorem Hit.onlyGuessed_noteKindEdge {line : Nat} {e : Edge} :
    (h.noteKindEdge line e origin).onlyGuessed = h.onlyGuessed := by
  cases e with
  | busHop => exact onlyGuessed_noteBusOrigin
  | _ => exact onlyGuessed_noteTaint

/-- A hit stays guessed as long as every touch is a guess. -/
theorem Hit.onlyGuessed_take : (h.take t).onlyGuessed = (h.onlyGuessed && !t.note.solid) := by
  obtain ⟨file, symbol, origin, note, arcs⟩ := t
  cases note with
  | kindEdge line e =>
      refine onlyGuessed_noteKindEdge.trans ?_
      simp [onlyGuessed, Note.solid]
  | ambiguous line e =>
      refine onlyGuessed_noteTaint.trans ?_
      simp [onlyGuessed, Note.solid]
  | ctorDi line iface =>
      refine onlyGuessed_noteTaint.trans ?_
      simp [onlyGuessed, Note.solid]
  | iface line e iface =>
      refine onlyGuessed_noteTaint.trans ?_
      simp [onlyGuessed, Note.solid]
  | heuristic line e =>
      refine onlyGuessed_noteTaint.trans ?_
      simp [onlyGuessed, Note.solid]

theorem Hit.onlyGuessed_foldl :
    (ts.foldl Hit.take h).onlyGuessed = true ↔
      h.onlyGuessed = true ∧ ∀ t ∈ ts, t.note.solid = false := by
  induction ts generalizing h with
  | nil => simp
  | cons t ts ih =>
      rw [List.foldl_cons, ih, onlyGuessed_take]
      simp [and_assoc]

/-! ## What a hit says of the bus -/

/-- The bus hop that every way so far crossed, the least one; none when a way crossed none. -/
def Hit.taint (h : Hit) : Option BusOrigin := if h.hasNonBusPath then none else h.busOrigin

theorem Hit.bus_noteBusOrigin : (h.noteBusOrigin o).hasNonBusPath = h.hasNonBusPath ∧
    (h.noteBusOrigin o).busOrigin = lowest h.busOrigin (some o) := by
  unfold noteBusOrigin
  cases hbus : h.busOrigin with
  | none => exact ⟨rfl, rfl⟩
  | some existing =>
      unfold lowest
      dsimp only
      split
      · exact ⟨rfl, rfl⟩
      · exact ⟨rfl, hbus⟩

theorem Hit.bus_noteTaint : (h.noteTaint origin).hasNonBusPath = (h.hasNonBusPath || origin.isNone) ∧
    (h.noteTaint origin).busOrigin = lowest h.busOrigin origin := by
  cases origin with
  | none =>
      refine ⟨(Bool.or_true _).symm, ?_⟩
      show h.busOrigin = lowest h.busOrigin none
      cases h.busOrigin <;> rfl
  | some o =>
      obtain ⟨hplain, horigin⟩ := bus_noteBusOrigin (h := h) (o := o)
      exact ⟨hplain.trans (Bool.or_false _).symm, horigin⟩

theorem Hit.bus_noteKindEdge {line : Nat} {e : Edge} :
    (h.noteKindEdge line e origin).hasNonBusPath = (h.hasNonBusPath || ((busIdentity e).or origin).isNone) ∧
    (h.noteKindEdge line e origin).busOrigin = lowest h.busOrigin ((busIdentity e).or origin) := by
  cases e with
  | busHop fromFile fromLine message toDef toFile =>
      obtain ⟨hplain, horigin⟩ := bus_noteBusOrigin (o := ⟨fromFile, fromLine, message, toDef, toFile⟩)
        (h := { h with
          lines := { h.lines with bus := (noteLineWhy h.lines.bus h.whyTrack.bus line .busHop).1 }
          whyTrack := { h.whyTrack with bus := (noteLineWhy h.lines.bus h.whyTrack.bus line .busHop).2 } })
      exact ⟨hplain.trans (Bool.or_false _).symm, horigin⟩
  | _ => exact bus_noteTaint

/-- A touch leaves its mark. -/
theorem Hit.bus_take : (h.take t).hasNonBusPath = (h.hasNonBusPath || t.mark.isNone) ∧
    (h.take t).busOrigin = lowest h.busOrigin t.mark := by
  obtain ⟨file, symbol, origin, note, arcs⟩ := t
  cases note with
  | kindEdge line e => exact bus_noteKindEdge
  | ambiguous line e => exact bus_noteTaint
  | ctorDi line iface => exact bus_noteTaint
  | iface line e iface => exact bus_noteTaint
  | heuristic line e => exact bus_noteTaint

theorem Hit.bus_foldl :
    ((ts.foldl Hit.take h).hasNonBusPath = true ↔ h.hasNonBusPath = true ∨ none ∈ ts.map Touch.mark) ∧
    (ts.foldl Hit.take h).busOrigin = (ts.map Touch.mark).foldl lowest h.busOrigin := by
  induction ts generalizing h with
  | nil => simp
  | cons t ts ih =>
      obtain ⟨hplain, horigin⟩ := ih (h := h.take t)
      rw [bus_take.1, Bool.or_eq_true, Option.isNone_iff_eq_none] at hplain
      rw [bus_take.2] at horigin
      refine ⟨?_, horigin⟩
      rw [List.foldl_cons, hplain, List.map_cons, List.mem_cons, or_assoc, eq_comm (b := t.mark)]

/-- **What a hit says of the bus** is what the marks of its touches come to. -/
theorem Hit.verdict_taint (hne : ts ≠ []) :
    Verdict (fun o => ∃ t ∈ ts, t.mark = o) (ts.foldl Hit.take {}).taint := by
  obtain ⟨hplain, horigin⟩ := @Hit.bus_foldl {} ts
  rw [or_iff_right Bool.false_ne_true] at hplain
  refine (verdict_congr fun o => List.mem_map).mp (verdict_foldl (by simpa using hne) ?_ ?_)
  · intro hnone
    exact if_pos (hplain.mpr hnone)
  · intro hmarked
    exact (if_neg fun h => hmarked (hplain.mp h)).trans horigin

/-- An entry is marked exactly when its hit came to a bus hop, and with that hop. -/
theorem Hit.busOnly_iff (hne : ts ≠ []) {hop : Nat} {infra : Bool} :
    (buildVisitedEntry hop infra (ts.foldl Hit.take {})).busOnly = true ↔
      (ts.foldl Hit.take {}).taint ≠ none := by
  rw [ne_eq, (verdict_taint hne).eq_none_iff]
  have hplain := (@Hit.bus_foldl {} ts).1
  simp only [Bool.false_eq_true, false_or, List.mem_map] at hplain
  rw [← hplain]
  simp [buildVisitedEntry]

end Folded

end Devscout.Query
