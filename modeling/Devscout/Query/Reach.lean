/-
# Devscout.Query.Reach -- the walk is bounded reachability

What a definition touches is told here from the graph alone: which edges lead from a
definition to a file, and which of them a chain may go on through. The walk visits the files
that a chain of as many steps as it has hops reaches, each at the length of its shortest
chain; what order it goes through anything in makes no difference to that.
-/

import Devscout.Query.Impact
import Devscout.Lib.Layers

namespace Devscout.Query

open Lib

/-! ## Steps of a chain -/

section Steps

variable (graph : Graph) (opts : IndexOptions) (settings : Settings)

/-- An edge leads from a definition to a file: it is solid or a guess, and it may be a bus
hop. -/
inductive Refers (d f : Str) : Bool → Option BusOrigin → Prop
  | precise {e : Edge} (he : e ∈ graph.edges) (h : Precise opts d e) (hfile : e.loc.1 = f) :
      Refers d f true (busIdentity e)
  | ambiguous {origin : Str} {fromLine : Nat} {candidates : List Str}
      (he : .ambiguous origin f fromLine candidates ∈ graph.edges) (h : d ∈ candidates) :
      Refers d f true none
  | handles {fromFile message toDef : Str} {fromLine : Nat}
      (he : .busHop fromFile fromLine message toDef f ∈ graph.edges) (hbus : opts.includeBus = true)
      (hfile : fromFile ∈ (loadGraphIndexWith graph opts).defFiles d) :
      Refers d f true (some ⟨fromFile, fromLine, message, toDef, f⟩)
  | injects {fromLine : Nat} {iface : Str} (he : .ctorDi f fromLine iface (some d) ∈ graph.edges)
      (hiface : settings.iface = true)
      (hbrake : brakeFanin (loadGraphIndexWith graph opts) settings.ifaceMaxFanin iface = none) :
      Refers d f true none
  | interface {iface : Str} {e : Edge} (he : e ∈ graph.edges) (h : UsesPrecisely iface e)
      (hfile : e.loc.1 = f) (hiface : settings.iface = true)
      (himpl : iface ∈ (loadGraphIndexWith graph opts).implementedInterfaces d)
      (hbrake : brakeFanin (loadGraphIndexWith graph opts) settings.ifaceMaxFanin
        (ifaceName (loadGraphIndexWith graph opts) iface) = none) :
      Refers d f true none
  | guess {e : Edge} (he : e ∈ graph.edges) (h : Guessed opts d e) (hfile : e.loc.1 = f) :
      Refers d f false none

/-- A file declares a definition. -/
def Declares (f d : Str) : Prop := ∃ x ∈ graph.defs, x.id = d ∧ (x.file = f ∨ f ∈ x.alsoIn)

/-- A file that a chain may go on through leads from one definition to another. -/
def Step (d e : Str) : Prop :=
  ∃ f, (∃ hop, Refers graph opts settings d f true hop) ∧
    isHub (loadGraphIndexWith graph opts) settings.hubMaxIndegree f = false ∧ Declares graph f e

/-- Some edge leads from a definition to a file. -/
def Touches (d f : Str) : Prop := ∃ solid hop, Refers graph opts settings d f solid hop

/-- A chain of `n` steps from a seed ends at the file. -/
def ReachedIn (seedIds : List Str) (n : Nat) (f : Str) : Prop :=
  ∃ m, n = m + 1 ∧ Touched (· ∈ seedIds) (Step graph opts settings) (Touches graph opts settings) m f

end Steps

/-! ## Touches are edges -/

section TouchIff

variable {graph : Graph} {opts : IndexOptions} {settings : Settings} {d f : Str}
  {origin hop : Option BusOrigin} {solid : Bool}

theorem brakeFanin_isSome {index : GraphIndex} {max : Nat} {name : Str} :
    (brakeFanin index max name).isSome = false ↔ brakeFanin index max name = none := by
  rw [Option.isSome_eq_false_iff, Option.isNone_iff_eq_none]

theorem mem_inboundTouches {t : Touch} :
    t ∈ inboundTouches (loadGraphIndexWith graph opts) d origin ↔
      ∃ e ∈ graph.edges, Precise opts d e ∧
        t = referringTouch (loadGraphIndexWith graph opts) d origin e.loc.1 (.kindEdge e.loc.2 e) := by
  unfold inboundTouches
  simp only [List.mem_flatMap, List.mem_map]
  constructor
  · rintro ⟨slot, hslot, e, he, rfl⟩
    obtain ⟨hmem, hprecise⟩ := mem_inbound_iff.mp ⟨slot, hslot, he⟩
    exact ⟨e, hmem, hprecise, rfl⟩
  · rintro ⟨e, hmem, hprecise, rfl⟩
    obtain ⟨slot, hslot, he⟩ := mem_inbound_iff.mpr ⟨hmem, hprecise⟩
    exact ⟨slot, hslot, e, he, rfl⟩

theorem mem_ambiguousByCandidate {e : Edge} :
    e ∈ EdgeTable.at (loadGraphIndexWith graph opts).ambiguousByCandidate d ↔
      e ∈ graph.edges ∧ ∃ origin fromFile fromLine candidates,
        e = .ambiguous origin fromFile fromLine candidates ∧ d ∈ candidates := by
  refine mem_fileEdges.trans (and_congr_right fun _ => ?_)
  constructor
  · intro h
    cases e with
    | ambiguous origin fromFile fromLine candidates => exact ⟨_, _, _, _, rfl, h⟩
    | inherits | usesType | usesMember =>
        simp only [record, recordReference] at h
        split at h <;> cases h
    | implements | overrides =>
        simp only [record, recordDispatchEdge] at h
        split at h <;> cases h
    | import_ | busHop =>
        simp only [record] at h
        split at h <;> cases h
    | _ => cases h
  · rintro ⟨_, _, _, _, rfl, h⟩
    exact h

theorem mem_ctorDiByTo {e : Edge} :
    e ∈ EdgeTable.at (loadGraphIndexWith graph opts).ctorDiByTo d ↔
      e ∈ graph.edges ∧ ∃ fromFile fromLine iface, e = .ctorDi fromFile fromLine iface (some d) := by
  refine mem_fileEdges.trans (and_congr_right fun _ => ?_)
  constructor
  · intro h
    cases e with
    | ctorDi fromFile fromLine iface toDef =>
        have hto : toDef = some d := by simpa [record] using h
        exact ⟨_, _, _, by rw [hto]⟩
    | inherits | usesType | usesMember =>
        simp only [record, recordReference] at h
        split at h <;> cases h
    | implements | overrides =>
        simp only [record, recordDispatchEdge] at h
        split at h <;> cases h
    | import_ | busHop =>
        simp only [record] at h
        split at h <;> cases h
    | _ => cases h
  · rintro ⟨_, _, _, rfl⟩
    simp [record]

theorem mem_outbound_busHop {e : Edge} {file : Str} :
    e ∈ SlotTable.at (loadGraphIndexWith graph opts).outboundByFile file .busHop ↔
      e ∈ graph.edges ∧ opts.includeBus = true ∧
        ∃ fromLine message toDef toFile, e = .busHop file fromLine message toDef toFile := by
  refine mem_fileSlots.trans (and_congr_right fun _ => ?_)
  constructor
  · intro h
    cases e with
    | busHop fromFile fromLine message toDef toFile =>
        simp only [record] at h
        split at h
        · cases List.mem_singleton.mp h
          exact ⟨‹_›, _, _, _, _, rfl⟩
        · cases h
    -- the other edges stand under slots of their own
    | inherits | usesType | usesMember => cases (mem_recordReference_outbound.mp h).2.2
    | implements | overrides => cases (mem_recordDispatchEdge_outbound.mp h).2.2
    | import_ =>
        simp only [record] at h
        split at h
        · cases h
        · cases List.mem_singleton.mp h
    | imports | call | jsxUse | dispatch => cases List.mem_singleton.mp h
    | ambiguous | ctorDi => cases h
  · rintro ⟨hbus, _, _, _, _, rfl⟩
    simp [record, hbus]

/-- Fresh sites lose no file: a reference left out is at a site already seen. -/
theorem exists_freshSites {seen : List (Str × Nat)} {refs : List (Str × Edge)} :
    (∃ r ∈ freshSites seen refs, r.2.loc.1 = f) ∨ (∃ site ∈ seen, site.1 = f) ↔
      (∃ r ∈ refs, r.2.loc.1 = f) ∨ ∃ site ∈ seen, site.1 = f := by
  induction refs generalizing seen with
  | nil => rfl
  | cons r rs ih =>
      rw [freshSites]
      by_cases hseen : r.2.loc ∈ seen
      · rw [if_pos hseen, ih]
        constructor
        · rintro (⟨r', hr', hf⟩ | hsite)
          · exact Or.inl ⟨r', List.mem_cons_of_mem r hr', hf⟩
          · exact Or.inr hsite
        · rintro (⟨r', hr', hf⟩ | hsite)
          · rcases List.mem_cons.mp hr' with rfl | hr'
            · exact Or.inr ⟨_, hseen, hf⟩
            · exact Or.inl ⟨r', hr', hf⟩
          · exact Or.inr hsite
      · -- the site of this reference is taken from here on
        have hrest := @ih (seen ++ [r.2.loc])
        simp only [List.mem_append, List.mem_singleton] at hrest
        rw [if_neg hseen]
        constructor
        · rintro (⟨r', hr', hf⟩ | hsite)
          · rcases List.mem_cons.mp hr' with rfl | hr'
            · exact Or.inl ⟨_, List.mem_cons_self, hf⟩
            · rcases hrest.mp (Or.inl ⟨r', hr', hf⟩) with ⟨r', hr', hf⟩ | ⟨site, hsite | rfl, hf⟩
              · exact Or.inl ⟨r', List.mem_cons_of_mem r hr', hf⟩
              · exact Or.inr ⟨site, hsite, hf⟩
              · exact Or.inl ⟨_, List.mem_cons_self, hf⟩
          · exact Or.inr hsite
        · rintro (⟨r', hr', hf⟩ | hsite)
          · rcases List.mem_cons.mp hr' with rfl | hr'
            · exact Or.inl ⟨_, List.mem_cons_self, hf⟩
            · rcases hrest.mpr (Or.inl ⟨r', hr', hf⟩) with ⟨r', hr', hf⟩ | ⟨site, hsite | rfl, hf⟩
              · exact Or.inl ⟨r', List.mem_cons_of_mem _ hr', hf⟩
              · exact Or.inr ⟨site, hsite, hf⟩
              · exact Or.inl ⟨_, List.mem_cons_self, hf⟩
          · exact Or.inr hsite

/-- The files of the injections that are followed. -/
theorem exists_ctorDiTouch (origin : Option BusOrigin) :
    (∃ t ∈ ctorDiTouches (loadGraphIndexWith graph opts) settings d origin, t.file = f) ↔
      ∃ fromLine iface, .ctorDi f fromLine iface (some d) ∈ graph.edges ∧
        brakeFanin (loadGraphIndexWith graph opts) settings.ifaceMaxFanin iface = none := by
  unfold ctorDiTouches
  simp only [List.mem_filterMap]
  constructor
  · rintro ⟨t, ⟨e, he, ht⟩, rfl⟩
    obtain ⟨hmem, fromFile, fromLine, iface, rfl⟩ := mem_ctorDiByTo.mp he
    dsimp only at ht
    split at ht
    · cases ht
    · cases ht
      exact ⟨fromLine, iface, hmem, brakeFanin_isSome.mp (Bool.eq_false_iff.mpr ‹_›)⟩
  · rintro ⟨fromLine, iface, hmem, hbrake⟩
    refine ⟨referringTouch (loadGraphIndexWith graph opts) d origin f (.ctorDi fromLine iface),
      ⟨_, mem_ctorDiByTo.mpr ⟨hmem, _, _, _, rfl⟩, ?_⟩, rfl⟩
    dsimp only
    rw [hbrake]
    rfl

theorem note_ctorDiTouch {origin : Option BusOrigin} {t : Touch}
    (ht : t ∈ ctorDiTouches (loadGraphIndexWith graph opts) settings d origin) :
    ∃ line iface, t.note = .ctorDi line iface := by
  unfold ctorDiTouches at ht
  obtain ⟨e, -, he⟩ := List.mem_filterMap.mp ht
  split at he
  · split at he
    · cases he
    · cases he
      exact ⟨_, _, rfl⟩
  · cases he

theorem exists_ctorDiSite (origin : Option BusOrigin) :
    (∃ site ∈ ctorDiSitesAt (loadGraphIndexWith graph opts) settings d origin, site.1 = f) ↔
      ∃ t ∈ ctorDiTouches (loadGraphIndexWith graph opts) settings d origin, t.file = f := by
  unfold ctorDiSitesAt
  simp only [List.mem_filterMap]
  constructor
  · rintro ⟨site, ⟨t, ht, hsite⟩, rfl⟩
    obtain ⟨line, iface, hnote⟩ := note_ctorDiTouch ht
    rw [hnote] at hsite
    cases hsite
    exact ⟨t, ht, rfl⟩
  · rintro ⟨t, ht, rfl⟩
    obtain ⟨line, iface, hnote⟩ := note_ctorDiTouch ht
    exact ⟨(t.file, line), ⟨t, ht, by rw [hnote]⟩, rfl⟩

/-- The files of the references whose site no injection has. -/
theorem exists_ifaceTouch (origin : Option BusOrigin) :
    (∃ t ∈ ifaceTouches (loadGraphIndexWith graph opts) settings d origin, t.file = f) ↔
      ∃ r ∈ freshSites (ctorDiSitesAt (loadGraphIndexWith graph opts) settings d origin)
        (ifaceReferences (loadGraphIndexWith graph opts) settings d), r.2.loc.1 = f := by
  unfold ifaceTouches
  simp only [List.mem_map]
  constructor
  · rintro ⟨t, ⟨r, hr, rfl⟩, hf⟩
    exact ⟨r, hr, hf⟩
  · rintro ⟨r, hr, hf⟩
    exact ⟨_, ⟨r, hr, rfl⟩, hf⟩

/-- The files of the interface hop: those of the followed injections and of the references
to an interface that is not braked. -/
theorem exists_ifaceHop (origin : Option BusOrigin) :
    (∃ t ∈ ctorDiTouches (loadGraphIndexWith graph opts) settings d origin ++
        ifaceTouches (loadGraphIndexWith graph opts) settings d origin, t.file = f) ↔
      (∃ fromLine iface, .ctorDi f fromLine iface (some d) ∈ graph.edges ∧
        brakeFanin (loadGraphIndexWith graph opts) settings.ifaceMaxFanin iface = none) ∨
      ∃ r ∈ ifaceReferences (loadGraphIndexWith graph opts) settings d, r.2.loc.1 = f := by
  rw [← exists_ctorDiTouch origin, ← exists_ctorDiSite origin]
  simp only [List.mem_append, or_and_right, exists_or]
  -- a reference left out for its site leaves the file to the touch that has the site
  rw [exists_ifaceTouch, ← exists_ctorDiSite, or_comm, exists_freshSites, or_comm]

theorem mem_ifaceReferences {r : Str × Edge} :
    r ∈ ifaceReferences (loadGraphIndexWith graph opts) settings d ↔
      ∃ iface ∈ (loadGraphIndexWith graph opts).implementedInterfaces d,
        brakeFanin (loadGraphIndexWith graph opts) settings.ifaceMaxFanin
          (ifaceName (loadGraphIndexWith graph opts) iface) = none ∧
        r.1 = ifaceName (loadGraphIndexWith graph opts) iface ∧
        r.2 ∈ graph.edges ∧ UsesPrecisely iface r.2 := by
  unfold ifaceReferences referredInterfaces
  simp only [List.mem_flatMap, List.mem_filter]
  constructor
  · rintro ⟨iface, ⟨himpl, -⟩, hr⟩
    split at hr
    · cases hr
    · obtain ⟨slot, hslot, hr⟩ := List.mem_flatMap.mp hr
      obtain ⟨e, he, rfl⟩ := List.mem_map.mp hr
      obtain ⟨hmem, huses⟩ := mem_uses_iff.mp ⟨slot, hslot, he⟩
      exact ⟨iface, himpl, brakeFanin_isSome.mp (Bool.eq_false_iff.mpr ‹_›), rfl, hmem, huses⟩
  · rintro ⟨iface, himpl, hbrake, hname, hmem, huses⟩
    obtain ⟨slot, hslot, he⟩ := mem_uses_iff.mpr ⟨hmem, huses⟩
    refine ⟨iface, ⟨himpl, has_inbound_iff.mpr ⟨r.2, hmem, huses.precise⟩⟩, ?_⟩
    rw [hbrake]
    exact List.mem_flatMap.mpr ⟨slot, hslot, List.mem_map.mpr ⟨r.2, he, by rw [← hname]⟩⟩

theorem exists_ifaceHop_iff (origin : Option BusOrigin) :
    (∃ t ∈ ctorDiTouches (loadGraphIndexWith graph opts) settings d origin ++
        ifaceTouches (loadGraphIndexWith graph opts) settings d origin, t.file = f) ↔
      (∃ fromLine iface, .ctorDi f fromLine iface (some d) ∈ graph.edges ∧
        brakeFanin (loadGraphIndexWith graph opts) settings.ifaceMaxFanin iface = none) ∨
      ∃ iface ∈ (loadGraphIndexWith graph opts).implementedInterfaces d,
        brakeFanin (loadGraphIndexWith graph opts) settings.ifaceMaxFanin
          (ifaceName (loadGraphIndexWith graph opts) iface) = none ∧
        ∃ e ∈ graph.edges, UsesPrecisely iface e ∧ e.loc.1 = f := by
  rw [exists_ifaceHop origin]
  refine or_congr_right ?_
  constructor
  · rintro ⟨r, hr, hf⟩
    obtain ⟨iface, himpl, hbrake, -, hmem, huses⟩ := mem_ifaceReferences.mp hr
    exact ⟨iface, himpl, hbrake, r.2, hmem, huses, hf⟩
  · rintro ⟨iface, himpl, hbrake, e, hmem, huses, hf⟩
    exact ⟨(ifaceName (loadGraphIndexWith graph opts) iface, e),
      mem_ifaceReferences.mpr ⟨iface, himpl, hbrake, rfl, hmem, huses⟩, hf⟩

/-- The interface hop is solid and no bus hop. -/
theorem ifaceHop_plain {t : Touch} (ht : t ∈ ctorDiTouches (loadGraphIndexWith graph opts) settings d origin ++
    ifaceTouches (loadGraphIndexWith graph opts) settings d origin) :
    t.note.solid = true ∧ t.crossed = none := by
  rcases List.mem_append.mp ht with ht | ht
  · unfold ctorDiTouches at ht
    obtain ⟨e, -, he⟩ := List.mem_filterMap.mp ht
    split at he
    · split at he
      · cases he
      · cases he
        exact ⟨rfl, rfl⟩
    · cases he
  · obtain ⟨r, -, rfl⟩ := List.mem_map.mp ht
    exact ⟨rfl, rfl⟩

/-- **What a definition touches is what edges lead to.** -/
theorem exists_touch_iff :
    (∃ t ∈ touches (loadGraphIndexWith graph opts) settings d origin,
        t.file = f ∧ t.note.solid = solid ∧ t.crossed = hop) ↔
      Refers graph opts settings d f solid hop := by
  unfold touches
  constructor
  · rintro ⟨t, ht, rfl, rfl, rfl⟩
    simp only [List.mem_append, or_assoc] at ht
    -- one kind of touch for each way to refer
    rcases ht with ht | ht | ht | ht | ht
    · obtain ⟨e, hmem, hprecise, rfl⟩ := mem_inboundTouches.mp ht
      exact .precise hmem hprecise rfl
    · obtain ⟨e, he, rfl⟩ := List.mem_map.mp ht
      obtain ⟨hmem, _, _, _, _, rfl, hcand⟩ := mem_ambiguousByCandidate.mp he
      exact .ambiguous hmem hcand
    · obtain ⟨file, hfile, ht⟩ := List.mem_flatMap.mp ht
      obtain ⟨e, he, het⟩ := List.mem_filterMap.mp ht
      obtain ⟨hmem, hbus, _, _, _, _, rfl⟩ := mem_outbound_busHop.mp he
      cases het
      exact .handles hmem hbus hfile
    · split at ht
      · rename_i hiface
        obtain ⟨hsolid, hcrossed⟩ := ifaceHop_plain ht
        rw [hsolid, hcrossed]
        rcases (exists_ifaceHop_iff origin).mp ⟨t, ht, rfl⟩ with
          ⟨fromLine, iface, hmem, hbrake⟩ | ⟨iface, himpl, hbrake, e, hmem, huses, hf⟩
        · exact .injects hmem hiface hbrake
        · exact .interface hmem huses hf hiface himpl hbrake
      · cases ht
    · obtain ⟨slot, hslot, ht⟩ := List.mem_flatMap.mp ht
      obtain ⟨e, he, rfl⟩ := List.mem_map.mp ht
      obtain ⟨hmem, hguess⟩ := mem_heuristicInbound_iff.mp ⟨slot, hslot, he⟩
      exact .guess hmem hguess rfl
  · intro h
    simp only [List.mem_append, or_assoc]
    cases h with
    | precise hmem hprecise hfile =>
        exact ⟨_, Or.inl (mem_inboundTouches.mpr ⟨_, hmem, hprecise, rfl⟩), hfile, rfl, rfl⟩
    | ambiguous hmem hcand =>
        exact ⟨_, Or.inr (Or.inl (List.mem_map.mpr
          ⟨_, mem_ambiguousByCandidate.mpr ⟨hmem, _, _, _, _, rfl, hcand⟩, rfl⟩)), rfl, rfl, rfl⟩
    | handles hmem hbus hfile =>
        exact ⟨_, Or.inr (Or.inr (Or.inl (List.mem_flatMap.mpr ⟨_, hfile, List.mem_filterMap.mpr
          ⟨_, mem_outbound_busHop.mpr ⟨hmem, hbus, _, _, _, _, rfl⟩, rfl⟩⟩))), rfl, rfl, rfl⟩
    | injects hmem hiface hbrake =>
        obtain ⟨t, ht, hf⟩ := (exists_ifaceHop_iff origin).mpr
          (Or.inl ⟨_, _, hmem, hbrake⟩)
        refine ⟨t, Or.inr (Or.inr (Or.inr (Or.inl ?_))), hf, ifaceHop_plain ht⟩
        rw [if_pos hiface]
        exact ht
    | interface hmem huses hfile hiface himpl hbrake =>
        obtain ⟨t, ht, hf⟩ := (exists_ifaceHop_iff origin).mpr
          (Or.inr ⟨_, himpl, hbrake, _, hmem, huses, hfile⟩)
        refine ⟨t, Or.inr (Or.inr (Or.inr (Or.inl ?_))), hf, ifaceHop_plain ht⟩
        rw [if_pos hiface]
        exact ht
    | guess hmem hguess hfile =>
        obtain ⟨slot, hslot, he⟩ := mem_heuristicInbound_iff.mpr ⟨hmem, hguess⟩
        exact ⟨_, Or.inr (Or.inr (Or.inr (Or.inr (List.mem_flatMap.mpr
          ⟨slot, hslot, List.mem_map.mpr ⟨_, he, rfl⟩⟩)))), hfile, rfl, rfl⟩

end TouchIff

/-! ## One round -/

section Round

variable {index : GraphIndex} {settings : Settings} {seedFiles : List Str} {h : Hit} {w : WalkState}
  {ds : List Def} {d f : Str} {hop : Nat} {more : Bool} {es : List (Str × Hit)}

theorem mem_insertSeq {seen : List Str} {x y : Str} : y ∈ insertSeq seen x ↔ y ∈ seen ∨ y = x := by
  unfold insertSeq
  split
  · constructor
    · exact Or.inl
    · rintro (hy | rfl)
      · exact hy
      · assumption
  · rw [List.mem_append, List.mem_singleton]

/-- Opening definitions adds them to what was seen, and the new ones to the frontier. -/
theorem seenDefs_foldl_openDef :
    d ∈ (ds.foldl (openDef h) w).seenDefs ↔ d ∈ w.seenDefs ∨ ∃ x ∈ ds, x.id = d := by
  induction ds generalizing w with
  | nil => simp
  | cons x ds ih =>
      rw [List.foldl_cons, ih, List.exists_mem_cons_iff, ← or_assoc]
      refine or_congr_left ?_
      unfold openDef
      split
      · constructor
        · exact Or.inl
        · rintro (hd | rfl)
          · exact hd
          · assumption
      · rw [List.mem_append, List.mem_singleton, eq_comm]

theorem frontier_foldl_openDef :
    d ∈ (ds.foldl (openDef h) w).frontier ↔
      d ∈ w.frontier ∨ (d ∉ w.seenDefs ∧ ∃ x ∈ ds, x.id = d) := by
  induction ds generalizing w with
  | nil => simp
  | cons x ds ih =>
      rw [List.foldl_cons, ih, List.exists_mem_cons_iff]
      unfold openDef
      by_cases hx : x.id ∈ w.seenDefs
      · rw [if_pos hx]
        refine or_congr_right (and_congr_right fun hd => ?_)
        constructor
        · exact Or.inr
        · rintro (rfl | hex)
          · exact absurd hx hd
          · exact hex
      · rw [if_neg hx]
        simp only [mem_insertSeq, List.mem_append, List.mem_singleton, not_or]
        constructor
        · rintro ((hd | rfl) | ⟨⟨hd, -⟩, hex⟩)
          · exact Or.inl hd
          · exact Or.inr ⟨hx, Or.inl rfl⟩
          · exact Or.inr ⟨hd, Or.inr hex⟩
        · rintro (hd | ⟨hd, rfl | hex⟩)
          · exact Or.inl (Or.inl hd)
          · exact Or.inl (Or.inr rfl)
          · -- two definitions of one id open it once
            by_cases hdx : d = x.id
            · exact Or.inl (Or.inr hdx)
            · exact Or.inr ⟨⟨hd, hdx⟩, hex⟩

/-- Opening definitions touches nothing else. -/
theorem rest_foldl_openDef : (ds.foldl (openDef h) w).visited = w.visited ∧
    (ds.foldl (openDef h) w).braked = w.braked ∧
    (ds.foldl (openDef h) w).brakedFiles = w.brakedFiles := by
  induction ds generalizing w with
  | nil => exact ⟨rfl, rfl, rfl⟩
  | cons x ds ih =>
      have hone : (openDef h w x).visited = w.visited ∧ (openDef h w x).braked = w.braked ∧
          (openDef h w x).brakedFiles = w.brakedFiles := by
        unfold openDef
        split
        · exact ⟨rfl, rfl, rfl⟩
        · exact ⟨rfl, rfl, rfl⟩
      rw [List.foldl_cons, ih.1, ih.2.1, ih.2.2]
      exact hone

/-- A hit opens a definition: it is solid, in no hub, and its file declares the definition. -/
def Opens (index : GraphIndex) (settings : Settings) (hit : Str × Hit) (d : Str) : Prop :=
  hit.2.onlyGuessed = false ∧ isHub index settings.hubMaxIndegree hit.1 = false ∧
    ∃ x ∈ index.byFile hit.1, x.id = d

theorem rest_recordVisit (index : GraphIndex) (settings : Settings) (seedFiles : List Str) (hop : Nat)
    (w : WalkState) (hit : Str × Hit) :
    (recordVisit index settings seedFiles hop hit.1 hit.2 w).seenDefs = w.seenDefs ∧
    (recordVisit index settings seedFiles hop hit.1 hit.2 w).frontier = w.frontier ∧
    (recordVisit index settings seedFiles hop hit.1 hit.2 w).defTaint = w.defTaint ∧
    (recordVisit index settings seedFiles hop hit.1 hit.2 w).braked = w.braked ∧
    (recordVisit index settings seedFiles hop hit.1 hit.2 w).brakedFiles = w.brakedFiles := by
  unfold recordVisit
  split
  · exact ⟨rfl, rfl, rfl, rfl, rfl⟩
  · exact ⟨rfl, rfl, rfl, rfl, rfl⟩

/-- What settling one hit does, by the three ways it can go. -/
theorem settle_cases (w : WalkState) (hit : Str × Hit) :
    (∃ ds : List Def, settle index settings seedFiles hop more w hit =
          ds.foldl (openDef hit.2) (recordVisit index settings seedFiles hop hit.1 hit.2 w) ∧
        ∀ d, (∃ x ∈ ds, x.id = d) ↔ Opens index settings hit d) ∨
    (settle index settings seedFiles hop more w hit =
        { recordVisit index settings seedFiles hop hit.1 hit.2 w with
          brakedFiles := (recordVisit index settings seedFiles hop hit.1 hit.2 w).brakedFiles.insert
            hit.1 (index.hubIndegree hit.1) } ∧
      hit.2.onlyGuessed = false ∧ isHub index settings.hubMaxIndegree hit.1 = true ∧ more = true) := by
  unfold settle
  dsimp only
  by_cases hguess : hit.2.onlyGuessed = true
  · -- a file reached by guesses only, or a hub at the last hop, opens nothing
    refine Or.inl ⟨[], by rw [if_pos hguess]; rfl, fun d => ?_⟩
    refine iff_of_false (by simp) fun hopens => ?_
    exact absurd (hguess.symm.trans hopens.1) (by decide)
  · rw [if_neg hguess]
    by_cases hhub : isHub index settings.hubMaxIndegree hit.1 = true
    · rw [if_pos hhub]
      cases more with
      | true => exact Or.inr ⟨rfl, by simpa using hguess, hhub, rfl⟩
      | false =>
          refine Or.inl ⟨[], rfl, fun d => ?_⟩
          refine iff_of_false (by simp) fun hopens => ?_
          exact absurd (hhub.symm.trans hopens.2.1) (by decide)
    · rw [if_neg hhub]
      refine Or.inl ⟨index.byFile hit.1, rfl, fun d => ?_⟩
      unfold Opens
      simp [hguess, hhub]

theorem seenDefs_settle (hit : Str × Hit) :
    d ∈ (settle index settings seedFiles hop more w hit).seenDefs ↔
      d ∈ w.seenDefs ∨ Opens index settings hit d := by
  obtain ⟨hseen, -, -, -, -⟩ := rest_recordVisit index settings seedFiles hop w hit
  rcases settle_cases w hit with ⟨ds, heq, hds⟩ | ⟨heq, -, hhub, -⟩
  · rw [heq, seenDefs_foldl_openDef, hseen, hds]
  · rw [heq]
    show d ∈ (recordVisit index settings seedFiles hop hit.1 hit.2 w).seenDefs ↔ _
    rw [hseen]
    refine (or_iff_left fun hopens => ?_).symm
    exact absurd (hhub.symm.trans hopens.2.1) (by decide)

theorem frontier_settle (hit : Str × Hit) :
    d ∈ (settle index settings seedFiles hop more w hit).frontier ↔
      d ∈ w.frontier ∨ (d ∉ w.seenDefs ∧ Opens index settings hit d) := by
  obtain ⟨hseen, hfrontier, -, -, -⟩ := rest_recordVisit index settings seedFiles hop w hit
  rcases settle_cases w hit with ⟨ds, heq, hds⟩ | ⟨heq, -, hhub, -⟩
  · rw [heq, frontier_foldl_openDef, hseen, hfrontier, hds]
  · rw [heq]
    show d ∈ (recordVisit index settings seedFiles hop hit.1 hit.2 w).frontier ↔ _
    rw [hfrontier]
    refine (or_iff_left fun hopens => ?_).symm
    exact absurd (hhub.symm.trans hopens.2.2.1) (by decide)

theorem visited_settle (hit : Str × Hit) :
    (settle index settings seedFiles hop more w hit).visited =
      (recordVisit index settings seedFiles hop hit.1 hit.2 w).visited := by
  rcases settle_cases w hit with ⟨ds, heq, -⟩ | ⟨heq, -⟩
  · rw [heq, rest_foldl_openDef.1]
  · rw [heq]

theorem seenDefs_foldl_settle :
    d ∈ (es.foldl (settle index settings seedFiles hop more) w).seenDefs ↔
      d ∈ w.seenDefs ∨ ∃ hit ∈ es, Opens index settings hit d := by
  induction es generalizing w with
  | nil => simp
  | cons hit es ih => rw [List.foldl_cons, ih, seenDefs_settle, List.exists_mem_cons_iff, or_assoc]

theorem frontier_foldl_settle :
    d ∈ (es.foldl (settle index settings seedFiles hop more) w).frontier ↔
      d ∈ w.frontier ∨ (d ∉ w.seenDefs ∧ ∃ hit ∈ es, Opens index settings hit d) := by
  induction es generalizing w with
  | nil => simp
  | cons hit es ih =>
      rw [List.foldl_cons, ih, frontier_settle, seenDefs_settle, List.exists_mem_cons_iff]
      by_cases hopens : Opens index settings hit d
      · simp [hopens]
      · simp [hopens]

theorem visited_recordVisit (hit : Str × Hit) :
    (recordVisit index settings seedFiles hop hit.1 hit.2 w).visited.get? f =
      (w.visited.get? f).or (if f = hit.1 ∧ f ∉ seedFiles then
        some (buildVisitedEntry hop (isHub index settings.hubMaxIndegree f) hit.2) else none) := by
  unfold recordVisit
  by_cases hold : (w.visited.get? hit.1).isSome = true ∨ hit.1 ∈ seedFiles
  · rw [if_pos hold]
    by_cases hf : f = hit.1 ∧ f ∉ seedFiles
    · obtain ⟨rfl, hseed⟩ := hf
      obtain ⟨v, hv⟩ := Option.isSome_iff_exists.mp (hold.resolve_right hseed)
      rw [hv]
      rfl
    · rw [if_neg hf, Option.or_none]
  · rw [if_neg hold]
    rw [not_or] at hold
    show (w.visited.insert hit.1 _).get? f = _
    rw [OrderedMap.get?_insert]
    by_cases hf : f = hit.1
    · subst hf
      rw [if_pos rfl, if_pos ⟨rfl, hold.2⟩, Option.not_isSome_iff_eq_none.mp hold.1]
      rfl
    · rw [if_neg hf, if_neg fun h => hf h.1, Option.or_none]

/-- A file stays as it was recorded; a new one is recorded as its hit is. -/
theorem visited_foldl_settle :
    (es.foldl (settle index settings seedFiles hop more) w).visited.get? f =
      (w.visited.get? f).or (if f ∈ seedFiles then none
        else (@List.lookup Str Hit instBEqOfDecidableEq f es).map
          (buildVisitedEntry hop (isHub index settings.hubMaxIndegree f))) := by
  induction es generalizing w with
  | nil => simp
  | cons hit es ih =>
      obtain ⟨file, h⟩ := hit
      rw [List.foldl_cons, ih, visited_settle, visited_recordVisit, Option.or_assoc]
      congr 1
      by_cases hseed : f ∈ seedFiles
      · simp [hseed]
      · by_cases hf : f = file
        · subst hf
          simp [hseed]
        · have hlookup : @List.lookup Str Hit instBEqOfDecidableEq f ((file, h) :: es) =
              @List.lookup Str Hit instBEqOfDecidableEq f es :=
            @OrderedMap.lookup_cons_ne Str Hit instBEqOfDecidableEq _ f file hf h es
          rw [hlookup]
          simp [hf]

end Round

section Hits

variable {graph : Graph} {opts : IndexOptions} {settings : Settings} {seedFiles : List Str}
  {w : WalkState} {h : Hit} {d f : Str} {hop : Nat} {more solid : Bool} {crossed : Option BusOrigin}

theorem exists_roundTouch_iff :
    (∃ t ∈ roundTouches (loadGraphIndexWith graph opts) settings w,
        t.file = f ∧ t.note.solid = solid ∧ t.crossed = crossed) ↔
      ∃ d ∈ w.frontier, Refers graph opts settings d f solid crossed := by
  unfold roundTouches
  simp only [List.mem_flatMap]
  constructor
  · rintro ⟨t, ⟨d, hd, ht⟩, hrest⟩
    exact ⟨d, hd, exists_touch_iff.mp ⟨t, ht, hrest⟩⟩
  · rintro ⟨d, hd, hrefers⟩
    obtain ⟨t, ht, hrest⟩ := exists_touch_iff.mpr hrefers
    exact ⟨t, ⟨d, hd, ht⟩, hrest⟩

/-- A file is hit when a definition of the frontier touches it. -/
theorem exists_hit_iff :
    (∃ h, (roundHits (loadGraphIndexWith graph opts) settings w).get? f = some h) ↔
      ∃ d ∈ w.frontier, Touches graph opts settings d f := by
  unfold roundHits
  rw [← OrderedMap.mem_keys_iff, OrderedMap.mem_keys_gather]
  constructor
  · rintro ⟨t, ht, hf⟩
    obtain ⟨d, hd, hrefers⟩ := exists_roundTouch_iff.mp ⟨t, ht, hf, rfl, rfl⟩
    exact ⟨d, hd, _, _, hrefers⟩
  · rintro ⟨d, hd, solid, crossed, hrefers⟩
    obtain ⟨t, ht, hf, -, -⟩ := exists_roundTouch_iff.mpr ⟨d, hd, hrefers⟩
    exact ⟨t, ht, hf⟩

/-- A hit adds up the touches of its file. -/
theorem eq_of_hit {index : GraphIndex} (hhit : (roundHits index settings w).get? f = some h) :
    h = ((roundTouches index settings w).filter fun t => t.file = f).foldl Hit.take {} := by
  unfold roundHits at hhit
  rw [OrderedMap.get?_gather, OrderedMap.get?_empty] at hhit
  split at hhit
  · cases hhit
  · exact (Option.some.inj hhit).symm

/-- A hit is solid when one of the edges is. -/
theorem not_onlyGuessed_iff
    (hhit : (roundHits (loadGraphIndexWith graph opts) settings w).get? f = some h) :
    h.onlyGuessed = false ↔ ∃ d ∈ w.frontier, ∃ hop, Refers graph opts settings d f true hop := by
  rw [eq_of_hit hhit, ← Bool.not_eq_true, Hit.onlyGuessed_foldl]
  constructor
  · intro hnot
    have hex : ∃ t ∈ roundTouches (loadGraphIndexWith graph opts) settings w,
        t.file = f ∧ t.note.solid = true := by
      by_contra hnone
      refine hnot ⟨rfl, fun t ht => ?_⟩
      obtain ⟨hmem, hf⟩ := List.mem_filter.mp ht
      rw [Bool.eq_false_iff]
      exact fun hsolid => hnone ⟨t, hmem, of_decide_eq_true hf, hsolid⟩
    obtain ⟨t, ht, hf, hsolid⟩ := hex
    obtain ⟨d, hd, hrefers⟩ := exists_roundTouch_iff.mp ⟨t, ht, hf, hsolid, rfl⟩
    exact ⟨d, hd, _, hrefers⟩
  · rintro ⟨d, hd, crossed, hrefers⟩ ⟨-, hall⟩
    obtain ⟨t, ht, hf, hsolid, -⟩ := exists_roundTouch_iff.mpr ⟨d, hd, hrefers⟩
    have hguess := hall t (List.mem_filter.mpr ⟨ht, by simpa using hf⟩)
    exact absurd (hsolid.symm.trans hguess) (by decide)

theorem exists_byFile_iff :
    (∃ x ∈ (loadGraphIndexWith graph opts).byFile f, x.id = d) ↔ Declares graph f d := by
  unfold GraphIndex.byFile Declares
  simp only [List.mem_filter, Bool.or_eq_true, beq_iff_eq, List.contains_iff_mem]
  constructor
  · rintro ⟨x, ⟨hx, hfile⟩, hid⟩
    exact ⟨x, hx, hid, hfile⟩
  · rintro ⟨x, hx, hid, hfile⟩
    exact ⟨x, ⟨hx, hfile⟩, hid⟩

/-- What a round opens is one step from its frontier. -/
theorem exists_opens_iff :
    (∃ hit ∈ (roundHits (loadGraphIndexWith graph opts) settings w).entries,
        Opens (loadGraphIndexWith graph opts) settings hit d) ↔
      ∃ e ∈ w.frontier, Step graph opts settings e d := by
  constructor
  · rintro ⟨hit, hmem, hsolid, hhub, hdeclares⟩
    obtain ⟨e, he, hop, hrefers⟩ :=
      (not_onlyGuessed_iff (OrderedMap.get?_eq_some_of_mem hmem)).mp hsolid
    exact ⟨e, he, hit.1, ⟨hop, hrefers⟩, hhub, exists_byFile_iff.mp hdeclares⟩
  · rintro ⟨e, he, f, ⟨hop, hrefers⟩, hhub, hdeclares⟩
    obtain ⟨h, hhit⟩ := exists_hit_iff.mpr ⟨e, he, _, _, hrefers⟩
    exact ⟨(f, h), OrderedMap.mem_of_get?_eq_some hhit,
      (not_onlyGuessed_iff hhit).mpr ⟨e, he, hop, hrefers⟩, hhub, exists_byFile_iff.mpr hdeclares⟩

theorem frontier_round :
    d ∈ (round (loadGraphIndexWith graph opts) settings seedFiles hop more w).frontier ↔
      d ∉ w.seenDefs ∧ ∃ e ∈ w.frontier, Step graph opts settings e d := by
  unfold round
  rw [frontier_foldl_settle, exists_opens_iff]
  simp

theorem seenDefs_round :
    d ∈ (round (loadGraphIndexWith graph opts) settings seedFiles hop more w).seenDefs ↔
      d ∈ w.seenDefs ∨
        d ∈ (round (loadGraphIndexWith graph opts) settings seedFiles hop more w).frontier := by
  rw [frontier_round]
  unfold round
  rw [seenDefs_foldl_settle, exists_opens_iff]
  by_cases hd : d ∈ w.seenDefs
  · simp [hd]
  · simp [hd]

theorem visited_round {index : GraphIndex} :
    (round index settings seedFiles hop more w).visited.get? f =
      (w.visited.get? f).or (if f ∈ seedFiles then none
        else ((roundHits index settings w).get? f).map
          (buildVisitedEntry hop (isHub index settings.hubMaxIndegree f))) := by
  unfold round
  rw [visited_foldl_settle]
  rfl

/-- With nothing in the frontier a round changes nothing. -/
theorem round_of_empty {index : GraphIndex} (h : w.frontier = []) :
    round index settings seedFiles hop more w = w := by
  obtain ⟨visited, frontier, seenDefs, defTaint, fwdAdj, braked, brakedFiles⟩ := w
  dsimp only at h
  subst h
  rfl

end Hits

/-! ## The whole walk -/

section WholeWalk

variable (index : GraphIndex) (settings : Settings) (seedIds : List Str) (hops : Nat)

/-- The walk after `m` rounds. -/
def walkAt : Nat → WalkState
  | 0 => startState seedIds
  | m + 1 => round index settings (seedFilesOf index seedIds) (m + 1) (decide (m + 1 < hops)) (walkAt m)

/-- The hits of the round after those. -/
def hitsAt (m : Nat) : OrderedMap Str Hit := roundHits index settings (walkAt index settings seedIds hops m)

variable {index settings seedIds hops}

/-- The loop takes all its rounds, as far as anyone can tell. -/
theorem rounds_walkAt {left m : Nat} (h : m + left = hops) :
    rounds index settings (seedFilesOf index seedIds) left (m + 1) (walkAt index settings seedIds hops m) =
      walkAt index settings seedIds hops hops := by
  induction left generalizing m with
  | zero =>
      rw [rounds, ← h]
      rfl
  | succ left ih =>
      have hnext : round index settings (seedFilesOf index seedIds) (m + 1) (decide (0 < left))
          (walkAt index settings seedIds hops m) = walkAt index settings seedIds hops (m + 1) := by
        have hmore : decide (0 < left) = decide (m + 1 < hops) := by
          rw [decide_eq_decide]
          omega
        rw [hmore]
        rfl
      have hrest := @ih (m + 1) (by omega)
      rw [rounds]
      split
      · rename_i hempty
        rw [← hnext, round_of_empty (List.isEmpty_iff.mp hempty)] at hrest
        rw [← hrest]
        -- the rounds left are rounds from an empty frontier
        cases left with
        | zero => rfl
        | succ left => rw [rounds, if_pos hempty]
      · rw [hnext, hrest]

theorem visited_impactWalk : (impactWalk index seedIds hops settings).visited =
    (walkAt index settings seedIds hops hops).visited :=
  congrArg WalkState.visited (rounds_walkAt (Nat.zero_add hops))

/-- A file is recorded by the first round that hits it. -/
theorem visited_walkAt {n : Nat} {f : Str} {v : VisitedEntry} :
    (walkAt index settings seedIds hops n).visited.get? f = some v ↔
      f ∉ seedFilesOf index seedIds ∧ ∃ m < n,
        (∀ k < m, (hitsAt index settings seedIds hops k).get? f = none) ∧
        ∃ h, (hitsAt index settings seedIds hops m).get? f = some h ∧
          v = buildVisitedEntry (m + 1) (isHub index settings.hubMaxIndegree f) h := by
  refine (kept_eq_some_iff (fun n => (walkAt index settings seedIds hops n).visited.get? f)
    (fun m => if f ∈ seedFilesOf index seedIds then none
      else ((hitsAt index settings seedIds hops m).get? f).map
        (buildVisitedEntry (m + 1) (isHub index settings.hubMaxIndegree f)))
    rfl (fun n => visited_round)).trans ?_
  by_cases hseed : f ∈ seedFilesOf index seedIds
  · simp [hseed]
  · simp [hseed, eq_comm]

end WholeWalk

section Reached

variable {graph : Graph} {opts : IndexOptions} {settings : Settings} {seedIds : List Str} {hops n m : Nat}
  {f : Str}

/-- The frontiers are the layers of the steps. -/
theorem searched_walkAt : Searched (· ∈ seedIds) (Step graph opts settings) m
    (· ∈ (walkAt (loadGraphIndexWith graph opts) settings seedIds hops m).frontier)
    (· ∈ (walkAt (loadGraphIndexWith graph opts) settings seedIds hops m).seenDefs) := by
  induction m with
  | zero => exact .init (fun d => List.mem_eraseDups) (fun d => List.mem_eraseDups)
  | succ m ih => exact ih.next (fun d => frontier_round) (fun d => seenDefs_round)

theorem exists_hitsAt_iff :
    (∃ h, (hitsAt (loadGraphIndexWith graph opts) settings seedIds hops m).get? f = some h) ↔
      LayerTouches (· ∈ seedIds) (Step graph opts settings) (Touches graph opts settings) m f := by
  refine exists_hit_iff.trans ?_
  simp only [searched_walkAt.frontier_iff]
  rfl

theorem hitsAt_eq_none_iff :
    (hitsAt (loadGraphIndexWith graph opts) settings seedIds hops m).get? f = none ↔
      ¬ LayerTouches (· ∈ seedIds) (Step graph opts settings) (Touches graph opts settings) m f := by
  rw [← exists_hitsAt_iff, Option.eq_none_iff_forall_ne_some, not_exists]

theorem reachedIn_succ : ReachedIn graph opts settings seedIds (m + 1) f ↔
    Touched (· ∈ seedIds) (Step graph opts settings) (Touches graph opts settings) m f := by
  constructor
  · rintro ⟨m', heq, h⟩
    rwa [Nat.succ.inj heq]
  · exact fun h => ⟨m, rfl, h⟩

/-- An entry is that of the first round whose chains reach the file. -/
theorem visited_impactWalk_iff {v : VisitedEntry} :
    (impactWalk (loadGraphIndexWith graph opts) seedIds hops settings).visited.get? f = some v ↔
      f ∉ seedFilesOf (loadGraphIndexWith graph opts) seedIds ∧ ∃ m < hops,
        (∀ k < m, ¬ ReachedIn graph opts settings seedIds (k + 1) f) ∧
        ∃ h, (hitsAt (loadGraphIndexWith graph opts) settings seedIds hops m).get? f = some h ∧
          v = buildVisitedEntry (m + 1)
            (isHub (loadGraphIndexWith graph opts) settings.hubMaxIndegree f) h := by
  rw [visited_impactWalk, visited_walkAt]
  refine and_congr_right fun _ => exists_congr fun m => and_congr_right fun _ => ?_
  simp only [hitsAt_eq_none_iff, reachedIn_succ]
  constructor
  · rintro ⟨hfirst, h, hhit, rfl⟩
    exact ⟨(first_layerTouches_iff.mp ⟨exists_hitsAt_iff.mp ⟨h, hhit⟩, hfirst⟩).2, h, hhit, rfl⟩
  · rintro ⟨hfirst, h, hhit, rfl⟩
    exact ⟨fun k hlt hk => hfirst k hlt hk.touched, h, hhit, rfl⟩

theorem exists_visited_iff :
    (∃ v, (impactWalk (loadGraphIndexWith graph opts) seedIds hops settings).visited.get? f = some v) ↔
      f ∉ seedFilesOf (loadGraphIndexWith graph opts) seedIds ∧
        ∃ n ≤ hops, ReachedIn graph opts settings seedIds n f := by
  simp only [visited_impactWalk_iff]
  constructor
  · rintro ⟨v, hseed, m, hlt, hfirst, h, hhit, rfl⟩
    exact ⟨hseed, m + 1, hlt, reachedIn_succ.mpr (exists_hitsAt_iff.mp ⟨h, hhit⟩).touched⟩
  · rintro ⟨hseed, n, hle, m, rfl, hreached⟩
    obtain ⟨k, hkm, hk⟩ := hreached.exists_first
    obtain ⟨h, hhit⟩ := exists_hitsAt_iff.mpr (first_layerTouches_iff.mpr hk).1
    exact ⟨_, hseed, k, by omega, fun j hlt hj => hk.2 j hlt (reachedIn_succ.mp hj), h, hhit, rfl⟩

theorem hop_of_visited {v : VisitedEntry}
    (hv : (impactWalk (loadGraphIndexWith graph opts) seedIds hops settings).visited.get? f = some v) :
    ReachedIn graph opts settings seedIds v.hop f ∧
      ∀ n < v.hop, ¬ ReachedIn graph opts settings seedIds n f := by
  obtain ⟨-, m, -, hfirst, h, hhit, rfl⟩ := visited_impactWalk_iff.mp hv
  refine ⟨reachedIn_succ.mpr (exists_hitsAt_iff.mp ⟨h, hhit⟩).touched, ?_⟩
  rintro n hlt ⟨k, rfl, hk⟩
  exact hfirst k (by simpa [buildVisitedEntry] using hlt) (reachedIn_succ.mpr hk)

/-- **The walk is bounded reachability.** A file is visited if and only if it is no seed file
and a chain of at most `hops` steps reaches it; its hop is the length of the shortest one;
and more hops leave every file visited before where it was. -/
theorem impactWalk_reaches (graph : Graph) (opts : IndexOptions) (seedIds : List Str) (hops : Nat)
    (settings : Settings) :
    (∀ f, (∃ v, (impactWalk (loadGraphIndexWith graph opts) seedIds hops settings).visited.get? f =
        some v) ↔
      f ∉ seedFilesOf (loadGraphIndexWith graph opts) seedIds ∧
        ∃ n ≤ hops, ReachedIn graph opts settings seedIds n f) ∧
    (∀ f v, (impactWalk (loadGraphIndexWith graph opts) seedIds hops settings).visited.get? f = some v →
      ReachedIn graph opts settings seedIds v.hop f ∧
        ∀ n < v.hop, ¬ ReachedIn graph opts settings seedIds n f) ∧
    ∀ more, hops ≤ more → ∀ f v,
      (impactWalk (loadGraphIndexWith graph opts) seedIds hops settings).visited.get? f = some v →
      ∃ v', (impactWalk (loadGraphIndexWith graph opts) seedIds more settings).visited.get? f = some v' ∧
        v'.hop = v.hop := by
  refine ⟨fun f => exists_visited_iff, fun f v => hop_of_visited, ?_⟩
  intro more hle f v hv
  obtain ⟨hseed, n, hn, hreached⟩ := exists_visited_iff.mp ⟨v, hv⟩
  obtain ⟨v', hv'⟩ := exists_visited_iff.mpr ⟨hseed, n, le_trans hn hle, hreached⟩
  obtain ⟨hv1, hv2⟩ := hop_of_visited hv
  obtain ⟨hv'1, hv'2⟩ := hop_of_visited hv'
  refine ⟨v', hv', ?_⟩
  -- each walk has the least number of hops, and reaching does not depend on the bound
  rcases Nat.lt_trichotomy v'.hop v.hop with hlt | heq | hlt
  · exact absurd hv'1 (hv2 _ hlt)
  · exact heq
  · exact absurd hv1 (hv'2 _ hlt)

end Reached

end Devscout.Query
