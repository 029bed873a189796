/-
# Devscout.Template.Scope -- template locals and what they hide

A `#ref` names the whole template, so it is collected before any read is judged. The locals
of a structural directive and the `let-x` of an `ng-template` cover the host element, every
attribute on it and its children. `$event` covers the one event binding it appears in.

The walk keeps one frame for each open element and looks a read up in all of them. Where the
tags nest, the frames are the elements around the event, whatever came before it: that is
shown here over all nestings, for a forest of elements whose events are walked. The walk
reads the lines of its tokens nowhere, so it is written over the label that a token gets;
the lexer's own line is the one the source uses.
-/

import Devscout.Template.Labels
import Devscout.Template.Lex

namespace Devscout.Template

open Lib

/-! ## Bindings -/

inductive BindingKind where
  | structural
  | event
  | twoWay
  | property
  | ref
  | letLocal
  | plain
  deriving DecidableEq

def startsWithText (start name : Str) : Bool := start.isPrefixOf name

def wrapped (start stop name : Str) : Bool := start.isPrefixOf name && stop.isSuffixOf name

example : wrapped ['['] [']'] ['[', 'a', ']'] = true := by decide +kernel

/-- `eq_ignore_ascii_case`. -/
def sameTag (a b : Str) : Bool := lowerName a == lowerName b

/-- `binding_of`. -/
def bindingOf (tag name : Str) : BindingKind :=
  if startsWithText "*".toList name then .structural
  else if startsWithText "#".toList name || startsWithText "ref-".toList name then .ref
  else if wrapped "[(".toList ")]".toList name || startsWithText "bindon-".toList name then .twoWay
  else if wrapped "[".toList "]".toList name || startsWithText "bind-".toList name then .property
  else if wrapped "(".toList ")".toList name || startsWithText "on-".toList name then .event
  else if startsWithText "let-".toList name && sameTag tag "ng-template".toList then .letLocal
  else .plain

/-- `ref_name`. -/
def refName (name : Str) : Str :=
  if startsWithText "#".toList name then name.drop 1
  else if startsWithText "ref-".toList name then name.drop 4
  else name

/-- What an attribute is read from: its value, or nothing where it is bare. -/
def Attr.text (a : Attr) : Str × Place := a.value.getD ([], a.place)

/-- `interpolations` of any text. -/
def piecesOf (text : Str) (first : Place) : List (Except Place (Str × Place)) :=
  (interpolations text first).get <| by
    obtain ⟨pieces, hpieces, -⟩ := interpolations_spec text first
    rw [hpieces]
    rfl

theorem interpolations_eq (text : Str) (first : Place) :
    interpolations text first = some (piecesOf text first) := (Option.some_get _).symm

/-! ## Expressions -/

/-- What a token of an expression at a place is labelled with. -/
abbrev Label := Str → Place → Lexeme → Nat

/-- The line the lexer tells. -/
def toldLine : Label := fun _ _ l => l.line

/-- What an expression comes to: the reads it has, in a binding that has `$event` or not, or a gap. -/
inductive Found where
  | reads (rs : List Read) (eventLocal : Bool)
  | gap (p : Place) (reason : GapReason)

def foundOf (parsed : Option (List Read)) (p : Place) (eventLocal : Bool) : Found :=
  match parsed with
  | some rs => .reads rs eventLocal
  | none => .gap p .unparsedExpression

section Expressions

variable (label : Label)

def tokensOf (x : Str × Place) : Option (List Token) :=
  (lex x.1 x.2.line).map fun ls => ls.map fun l => ⟨l.tok, label x.1 x.2 l⟩

/-- `parse_binding`. -/
def bindingReads (x : Str × Place) : Option (List Read) := (tokensOf label x).bind parseBinding

/-- `parse_action`. -/
def actionReads (x : Str × Place) : Option (List Read) := (tokensOf label x).bind parseAction

/-- `parse_micro`. -/
def microOf (x : Str × Place) : Option Micro := (tokensOf label x).bind parseMicro

def pieceFound : Except Place (Str × Place) → Found
  | .ok x => foundOf (bindingReads label x) x.2 false
  | .error p => .gap p .unparsedExpression

/-- The directive of an attribute, if it is one. -/
def microFor (tag : Str) (a : Attr) : Option (Option Micro) :=
  if bindingOf tag a.name = .structural then some (microOf label a.text) else none

/-- What an attribute adds to the locals of its element. -/
def localsOf (tag : Str) (a : Attr) (micro : Option (Option Micro)) : List String :=
  match bindingOf tag a.name with
  | .structural => (micro.join.map Micro.locals).getD []
  | .letLocal => [String.ofList (a.name.drop 4)]
  | _ => []

/-- What the expressions of an attribute come to. -/
def attrFound (tag : Str) (a : Attr) (micro : Option (Option Micro)) : List Found :=
  match bindingOf tag a.name with
  | .structural =>
      [foundOf (match micro with
        | none => some []
        | some m => m.map Micro.reads) a.text.2 false]
  | .event => [foundOf (actionReads label a.text) a.text.2 true]
  | .twoWay => [foundOf (bindingReads label a.text) a.text.2 true]
  | .property => [foundOf (bindingReads label a.text) a.text.2 false]
  | .ref | .letLocal => [foundOf (some []) a.text.2 false]
  | .plain => (piecesOf a.text.1 a.text.2).map (pieceFound label)

end Expressions

/-! ## The walk -/

/-- `TemplateScan`: the reads that are kept and the gaps, in source order. -/
structure Scanned where
  reads : List Read
  gaps : List (Place × GapReason)
  deriving DecidableEq

/-- The refs of the template, the frames with the innermost one first, and what is kept so far. -/
structure Walk where
  refs : List String
  frames : List (Str × List String)
  out : Scanned

namespace Walk

def hidden (w : Walk) (name : String) : Bool :=
  w.refs.contains name || w.frames.any fun frame => frame.2.contains name

def keep (w : Walk) (rs : List Read) (eventLocal : Bool) : Walk :=
  { w with out := { w.out with
      reads := w.out.reads ++ rs.filter fun r => !((eventLocal && r.1 == "$event") || w.hidden r.1) } }

def gap (w : Walk) (p : Place) (reason : GapReason) : Walk :=
  { w with out := { w.out with gaps := w.out.gaps ++ [(p, reason)] } }

/-- Keeps what an expression comes to. -/
def judge (w : Walk) : Found → Walk
  | .reads rs eventLocal => w.keep rs eventLocal
  | .gap p reason => w.gap p reason

/-- `close`: a stray end tag that matches no open element changes nothing. -/
def close (w : Walk) (tag : Str) : Walk :=
  if w.frames.any fun frame => sameTag frame.1 tag then
    { w with frames := (w.frames.dropWhile fun frame => !sameTag frame.1 tag).drop 1 }
  else w

section

variable (label : Label)

/-- `attr`. -/
def attr (w : Walk) (tag : Str) (a : Attr) (micro : Option (Option Micro)) : Walk :=
  (attrFound label tag a micro).foldl judge w

/-- `open`: the locals are collected before the attributes are read. -/
def open_ (w : Walk) (tag : Str) (attrs : List Attr) (closes : Bool) : Walk :=
  let micros := attrs.map fun a => (a, microFor label tag a)
  let locals := micros.flatMap fun x => localsOf tag x.1 x.2
  let inner := { w with frames := (tag, locals) :: w.frames }
  let after := micros.foldl (fun w x => w.attr label tag x.1 x.2) inner
  if closes then { after with frames := after.frames.drop 1 } else after

def step (w : Walk) : Event → Walk
  | .open_ tag attrs closes => w.open_ label tag attrs closes
  | .close tag => w.close tag
  | .interp expr p => w.judge (foundOf (bindingReads label (expr, p)) p false)
  | .gap p reason => w.gap p reason

end

end Walk

/-- The refs of all start tags. -/
def templateRefs (es : List Event) : List String :=
  es.flatMap fun
    | .open_ _ attrs _ =>
        (attrs.filter fun a => startsWithText "#".toList a.name || startsWithText "ref-".toList a.name).map
          fun a => String.ofList (refName a.name)
    | _ => []

def walkWith (label : Label) (es : List Event) : Scanned :=
  (es.foldl (Walk.step label) ⟨templateRefs es, [], ⟨[], []⟩⟩).out

/-- `walk`: judges every event's reads against the locals in scope. -/
def walk (es : List Event) : Scanned := walkWith toldLine es

/-! ## Elements -/

structure Element where
  tag : Str
  attrs : List Attr

/-- An attribute of the element declares a local: a structural directive, or an `ng-template`'s
`let-`. -/
def Element.Declares (label : Label) (el : Element) (name : String) : Prop :=
  ∃ a ∈ el.attrs,
    (bindingOf el.tag a.name = .structural ∧ ∃ m, microOf label a.text = some m ∧ name ∈ m.locals) ∨
      (bindingOf el.tag a.name = .letLocal ∧ a.name = "let-".toList ++ name.toList)

/-- A `#ref` or `ref-` of that name is written on a start tag. -/
def Referenced (es : List Event) (name : String) : Prop :=
  ∃ tag attrs closes, Event.open_ tag attrs closes ∈ es ∧
    ∃ a ∈ attrs, a.name = "#".toList ++ name.toList ∨ a.name = "ref-".toList ++ name.toList

section Elements

variable {label : Label} {name : String} {es : List Event}

theorem drop_eq_iff {start rest : Str} (h : startsWithText start rest = true) :
    String.ofList (rest.drop start.length) = name ↔ rest = start ++ name.toList := by
  obtain ⟨more, rfl⟩ := List.isPrefixOf_iff_prefix.mp h
  rw [List.drop_left, List.append_cancel_left_eq]
  constructor
  · rintro rfl
    exact String.toList_ofList.symm
  · rintro rfl
    exact String.ofList_toList

theorem startsWithText_append (start rest : Str) : startsWithText start (start ++ rest) = true :=
  List.isPrefixOf_iff_prefix.mpr ⟨rest, rfl⟩

theorem startsWith_of_letLocal {tag attrName : Str} (h : bindingOf tag attrName = .letLocal) :
    startsWithText "let-".toList attrName = true := by
  unfold bindingOf at h
  repeat' split at h
  all_goals first
    | exact (Bool.and_eq_true_iff.mp ‹_›).1
    | cases h

/-- The locals an element's frame is filled with. -/
def Element.locals (label : Label) (el : Element) : List String :=
  el.attrs.flatMap fun a => localsOf el.tag a (microFor label el.tag a)

theorem mem_localsOf {tag : Str} {a : Attr} : name ∈ localsOf tag a (microFor label tag a) ↔
    (bindingOf tag a.name = .structural ∧ ∃ m, microOf label a.text = some m ∧ name ∈ m.locals) ∨
      (bindingOf tag a.name = .letLocal ∧ a.name = "let-".toList ++ name.toList) := by
  unfold localsOf microFor
  cases hkind : bindingOf tag a.name with
  | structural =>
      rw [if_pos rfl, Option.join_some]
      dsimp only
      cases hm : microOf label a.text with
      | none => simp
      | some m => simp
  | letLocal =>
      have hdrop := @drop_eq_iff name _ _ (startsWith_of_letLocal hkind)
      simp only [List.mem_singleton, reduceCtorEq, false_and, true_and, false_or]
      rw [← hdrop, eq_comm]
      rfl
  | _ => simp

theorem Element.mem_locals {el : Element} : name ∈ el.locals label ↔ el.Declares label name := by
  unfold Element.locals Element.Declares
  rw [List.mem_flatMap]
  simp only [mem_localsOf]

theorem refName_eq_iff {attrName : Str} :
    ((startsWithText "#".toList attrName || startsWithText "ref-".toList attrName) = true ∧
      String.ofList (refName attrName) = name) ↔
      attrName = "#".toList ++ name.toList ∨ attrName = "ref-".toList ++ name.toList := by
  unfold refName
  by_cases hhash : startsWithText "#".toList attrName = true
  · have hother : attrName ≠ "ref-".toList ++ name.toList := by
      rintro rfl
      exact absurd hhash (by simp [startsWithText])
    have hdrop := @drop_eq_iff name _ _ hhash
    rw [if_pos hhash, hhash, Bool.true_or, or_iff_left hother, ← hdrop]
    exact and_iff_right rfl
  · have hother : attrName ≠ "#".toList ++ name.toList := by
      rintro rfl
      exact hhash (startsWithText_append _ _)
    rw [if_neg hhash, Bool.eq_false_iff.mpr hhash, Bool.false_or, or_iff_right hother]
    constructor
    · rintro ⟨href, hname⟩
      rw [if_pos href] at hname
      exact (drop_eq_iff href).mp hname
    · rintro rfl
      have href := startsWithText_append "ref-".toList name.toList
      refine ⟨href, ?_⟩
      rw [if_pos href]
      exact (drop_eq_iff href).mpr rfl

theorem mem_templateRefs : name ∈ templateRefs es ↔ Referenced es name := by
  unfold templateRefs Referenced
  rw [List.mem_flatMap]
  constructor
  · rintro ⟨e, he, hname⟩
    cases e with
    | open_ tag attrs closes =>
        obtain ⟨a, ha, heq⟩ := List.mem_map.mp hname
        obtain ⟨hmem, hstart⟩ := List.mem_filter.mp ha
        exact ⟨tag, attrs, closes, he, a, hmem, refName_eq_iff.mp ⟨hstart, heq⟩⟩
    | _ => exact absurd hname List.not_mem_nil
  · rintro ⟨tag, attrs, closes, he, a, hmem, heq⟩
    obtain ⟨hstart, hname⟩ := refName_eq_iff.mpr heq
    exact ⟨_, he, List.mem_map.mpr ⟨a, List.mem_filter.mpr ⟨hmem, hstart⟩, hname⟩⟩

end Elements

/-! ## Nested templates -/

/-- The events of a template whose tags nest. A void element closes itself; an end tag may be stray. -/
inductive Forest where
  | nil
  | element (tag : Str) (attrs : List Attr) (inner : Forest) (endTag : Str) (rest : Forest)
  | void (tag : Str) (attrs : List Attr) (rest : Forest)
  | stray (tag : Str) (rest : Forest)
  | interp (expr : Str) (p : Place) (rest : Forest)
  | gap (p : Place) (reason : GapReason) (rest : Forest)

namespace Forest

def events : Forest → List Event
  | nil => []
  | element tag attrs inner endTag rest =>
      .open_ tag attrs false :: (inner.events ++ .close endTag :: rest.events)
  | void tag attrs rest => .open_ tag attrs true :: rest.events
  | stray tag rest => .close tag :: rest.events
  | interp expr p rest => .interp expr p :: rest.events
  | gap p reason rest => .gap p reason :: rest.events

/-- Every end tag of an element has its name, and a stray one has the name of no element around it;
the tags around come first. -/
def Proper : List Str → Forest → Prop
  | _, nil => True
  | above, element tag _ inner endTag rest =>
      sameTag tag endTag = true ∧ inner.Proper (tag :: above) ∧ rest.Proper above
  | above, void _ _ rest => rest.Proper above
  | above, stray tag rest => (∀ t ∈ above, sameTag t tag = false) ∧ rest.Proper above
  | above, interp _ _ rest => rest.Proper above
  | above, gap _ _ rest => rest.Proper above

/-- The forest is what the events spell. -/
def Spells (f : Forest) (es : List Event) : Prop := f.events = es ∧ f.Proper []

end Forest

/-- The tags of the events nest: with these elements open, the innermost one first, every end tag is
that of the innermost one or of none, and at the end all of them are closed. -/
def nests : List Str → List Event → Bool
  | above, [] => above.isEmpty
  | above, .open_ tag _ closes :: es => if closes then nests above es else nests (tag :: above) es
  | [], .close _ :: es => nests [] es
  | t :: above, .close tag :: es =>
      if sameTag t tag then nests above es
      else !above.any (sameTag · tag) && nests (t :: above) es
  | above, .interp _ _ :: es => nests above es
  | above, .gap _ _ :: es => nests above es

/-- Nested events are those of a forest, up to the end tag of the innermost element. -/
theorem exists_forest_above {above : List Str} {es : List Event} (h : nests above es = true) :
    ∃ (f : Forest) (rest : List Event), es = f.events ++ rest ∧ f.Proper above ∧
      ((rest = [] ∧ above = []) ∨ ∃ t outer tag behind, above = t :: outer ∧
        rest = .close tag :: behind ∧ sameTag t tag = true ∧ nests outer behind = true) := by
  induction hlen : es.length using Nat.strongRecOn generalizing above es with
  | _ len ih =>
      rcases es with _ | ⟨e, es⟩
      · exact ⟨.nil, [], rfl, trivial, .inl ⟨rfl, List.isEmpty_iff.mp h⟩⟩
      · rw [List.length_cons] at hlen
        cases e with
        | open_ tag attrs closes =>
            rw [nests] at h
            split at h
            · rename_i hcloses
              obtain ⟨f, rest, rfl, hf, hrest⟩ := ih es.length (by omega) h rfl
              exact ⟨.void tag attrs f, rest, by rw [hcloses]; rfl, hf, hrest⟩
            · rename_i hcloses
              obtain ⟨inner, rest, rfl, hinner, hend⟩ := ih es.length (by omega) h rfl
              -- the element is open, so its content is followed by its end tag
              rcases hend with ⟨-, hnil⟩ | ⟨t, outer, endTag, behind, habove, rfl, hsame, hbehind⟩
              · cases hnil
              · obtain ⟨rfl, rfl⟩ := List.cons.inj habove
                rw [List.length_append, List.length_cons] at hlen
                obtain ⟨f, rest, rfl, hf, hrest⟩ := ih behind.length (by omega) hbehind rfl
                refine ⟨.element tag attrs inner endTag f, rest, ?_, ⟨hsame, hinner, hf⟩, hrest⟩
                rw [Bool.eq_false_iff.mpr hcloses, Forest.events, List.cons_append, List.append_assoc,
                  List.cons_append]
        | close tag =>
            rcases above with _ | ⟨t, above⟩
            · have hbehind : nests [] es = true := h
              obtain ⟨f, rest, rfl, hf, hrest⟩ := ih es.length (by omega) hbehind rfl
              exact ⟨.stray tag f, rest, rfl, ⟨fun t ht => absurd ht List.not_mem_nil, hf⟩, hrest⟩
            · rw [nests] at h
              split at h
              · rename_i hsame
                exact ⟨.nil, .close tag :: es, rfl, trivial, .inr ⟨t, above, tag, es, rfl, rfl, hsame, h⟩⟩
              · rename_i hsame
                rw [Bool.and_eq_true, Bool.not_eq_true', List.any_eq_false] at h
                obtain ⟨f, rest, rfl, hf, hrest⟩ := ih es.length (by omega) h.2 rfl
                refine ⟨.stray tag f, rest, rfl, ⟨?_, hf⟩, hrest⟩
                exact List.forall_mem_cons.mpr ⟨Bool.eq_false_iff.mpr hsame,
                  fun u hu => Bool.eq_false_iff.mpr (h.1 u hu)⟩
        | interp expr p =>
            have hbehind : nests above es = true := by rwa [nests] at h
            obtain ⟨f, rest, rfl, hf, hrest⟩ := ih es.length (by omega) hbehind rfl
            exact ⟨.interp expr p f, rest, rfl, hf, hrest⟩
        | gap p reason =>
            have hbehind : nests above es = true := by rwa [nests] at h
            obtain ⟨f, rest, rfl, hf, hrest⟩ := ih es.length (by omega) hbehind rfl
            exact ⟨.gap p reason f, rest, rfl, hf, hrest⟩

theorem exists_forest {es : List Event} (h : nests [] es = true) : ∃ f : Forest, f.Spells es := by
  obtain ⟨f, rest, rfl, hf, hrest⟩ := exists_forest_above h
  rcases hrest with ⟨rfl, -⟩ | ⟨t, outer, tag, behind, habove, -⟩
  · exact ⟨f, (List.append_nil _).symm, hf⟩
  · cases habove

/-! ## What is hidden -/

/-- What an expression comes to, and the elements around it: for an attribute, its own element first. -/
structure Site where
  found : Found
  around : List Element

/-- What the attributes of an element come to. -/
def Element.sites (label : Label) (el : Element) (around : List Element) : List Site :=
  (el.attrs.flatMap fun a => attrFound label el.tag a (microFor label el.tag a)).map (⟨·, el :: around⟩)

/-- The expressions of a forest, in order. -/
def Forest.sites (label : Label) (around : List Element) : Forest → List Site
  | nil => []
  | element tag attrs inner _ rest =>
      Element.sites label ⟨tag, attrs⟩ around ++ inner.sites label (⟨tag, attrs⟩ :: around) ++
        rest.sites label around
  | void tag attrs rest => Element.sites label ⟨tag, attrs⟩ around ++ rest.sites label around
  | stray _ rest => rest.sites label around
  | interp expr p rest => ⟨foundOf (bindingReads label (expr, p)) p false, around⟩ :: rest.sites label around
  | gap p reason rest => ⟨.gap p reason, around⟩ :: rest.sites label around

/-- **What drops a read**: a ref of the template, a local of an element around it, or `$event` in an
event or two-way binding. -/
def Drops (label : Label) (es : List Event) (around : List Element) (eventLocal : Bool)
    (name : String) : Prop :=
  Referenced es name ∨ (∃ el ∈ around, el.Declares label name) ∨ (eventLocal = true ∧ name = "$event")

open scoped Classical in
/-- The reads of a site that nothing drops. -/
noncomputable def Site.kept (label : Label) (es : List Event) (site : Site) : List Read :=
  match site.found with
  | .reads rs eventLocal => rs.filter fun r => ¬Drops label es site.around eventLocal r.1
  | .gap _ _ => []

def Site.gaps (site : Site) : List (Place × GapReason) :=
  match site.found with
  | .reads _ _ => []
  | .gap p reason => [(p, reason)]

section Walking

variable {label : Label} {es : List Event} {around : List Element} {out : Scanned}

/-- The frame an element is walked with. -/
def Element.frame (label : Label) (el : Element) : Str × List String := (el.tag, el.locals label)

/-- The walk inside these elements. -/
def within (label : Label) (es : List Event) (around : List Element) (out : Scanned) : Walk :=
  ⟨templateRefs es, around.map (Element.frame label), out⟩

theorem hidden_within {name : String} : (within label es around out).hidden name = true ↔
    Referenced es name ∨ ∃ el ∈ around, el.Declares label name := by
  unfold within Walk.hidden
  rw [Bool.or_eq_true, List.contains_iff_mem, mem_templateRefs, List.any_map, List.any_eq_true]
  simp only [Function.comp_apply, Element.frame, List.contains_iff_mem, Element.mem_locals]

/-- What the sites add to what is kept so far. -/
noncomputable def Scanned.add (label : Label) (es : List Event) (out : Scanned) (sites : List Site) : Scanned :=
  ⟨out.reads ++ sites.flatMap (Site.kept label es), out.gaps ++ sites.flatMap Site.gaps⟩

theorem Scanned.add_append (a b : List Site) :
    out.add label es (a ++ b) = (out.add label es a).add label es b := by
  simp only [Scanned.add, List.flatMap_append, List.append_assoc]

open scoped Classical in
/-- One expression is judged by the elements around it. -/
theorem judge_within (found : Found) : (within label es around out).judge found =
    within label es around (out.add label es [⟨found, around⟩]) := by
  cases found with
  | gap p reason =>
      show Walk.mk _ _ _ = Walk.mk _ _ _
      simp only [Scanned.add, List.flatMap_singleton, Site.kept, Site.gaps, List.append_nil, within]
  | reads rs eventLocal =>
      have hfilter : (rs.filter fun r => !((eventLocal && r.1 == "$event") ||
          (within label es around out).hidden r.1)) = Site.kept label es ⟨.reads rs eventLocal, around⟩ := by
        refine List.filter_congr fun r _ => ?_
        rw [Bool.eq_iff_iff, Bool.not_eq_true', decide_eq_true_eq, Bool.eq_false_iff, ne_eq, Bool.or_eq_true,
          hidden_within, Bool.and_eq_true, beq_iff_eq, Drops, or_comm, or_assoc]
      show Walk.mk _ _ _ = Walk.mk _ _ _
      rw [hfilter]
      simp only [Scanned.add, List.flatMap_singleton, Site.gaps, List.append_nil, within]

theorem judge_all (founds : List Found) : founds.foldl Walk.judge (within label es around out) =
    within label es around (out.add label es (founds.map (⟨·, around⟩))) := by
  induction founds generalizing out with
  | nil => simp only [List.foldl_nil, List.map_nil, Scanned.add, List.flatMap_nil, List.append_nil]
  | cons found founds ih =>
      rw [List.foldl_cons, judge_within, ih, List.map_cons, ← Scanned.add_append]
      rfl

/-- An element that opens: its attributes are judged with its own locals in scope. -/
theorem open_within (tag : Str) (attrs : List Attr) :
    (within label es around out).open_ label tag attrs false =
      within label es (⟨tag, attrs⟩ :: around) (out.add label es (Element.sites label ⟨tag, attrs⟩ around)) := by
  have hlocals : (attrs.map fun a => (a, microFor label tag a)).flatMap (fun x => localsOf tag x.1 x.2) =
      Element.locals label ⟨tag, attrs⟩ := List.flatMap_map _ _ _
  unfold Walk.open_ Walk.attr
  dsimp only
  rw [hlocals, List.foldl_map, if_neg Bool.false_ne_true, Element.sites, ← judge_all, List.foldl_flatMap]
  rfl

theorem openClosed_within (tag : Str) (attrs : List Attr) :
    (within label es around out).open_ label tag attrs true =
      within label es around (out.add label es (Element.sites label ⟨tag, attrs⟩ around)) := by
  have hopen : (within label es around out).open_ label tag attrs true =
      let after := (within label es around out).open_ label tag attrs false
      { after with frames := after.frames.drop 1 } := rfl
  rw [hopen, open_within]
  rfl

/-- The end tag of the innermost element takes its frame off. -/
theorem close_within {tag endTag : Str} {attrs : List Attr} (h : sameTag tag endTag = true) :
    (within label es (⟨tag, attrs⟩ :: around) out).close endTag = within label es around out := by
  unfold Walk.close within
  dsimp only
  rw [List.map_cons, List.any_cons, Element.frame, h, Bool.true_or, if_pos rfl, List.dropWhile_cons, h]
  rfl

/-- **A stray end tag changes nothing.** -/
theorem close_stray {tag : Str} (h : ∀ t ∈ around.map Element.tag, sameTag t tag = false) :
    (within label es around out).close tag = within label es around out := by
  refine if_neg ?_
  rw [Bool.not_eq_true, List.any_eq_false]
  intro frame hframe
  obtain ⟨el, hel, rfl⟩ := List.mem_map.mp hframe
  rw [Element.frame, h el.tag (List.mem_map_of_mem hel)]
  exact Bool.false_ne_true

/-- **The walk of a forest** leaves the frames as they were, and judges every expression by the
elements around it. -/
theorem walk_forest (f : Forest) (hf : f.Proper (around.map Element.tag)) :
    f.events.foldl (Walk.step label) (within label es around out) =
      within label es around (out.add label es (f.sites label around)) := by
  induction f generalizing around out with
  | nil => simp [Forest.events, Forest.sites, Scanned.add]
  | element tag attrs inner endTag rest ihInner ihRest =>
      obtain ⟨hend, hcontent, hrest⟩ := hf
      have hinner : inner.Proper ((⟨tag, attrs⟩ :: around : List Element).map Element.tag) := hcontent
      rw [Forest.events, List.foldl_cons, List.foldl_append, List.foldl_cons, Walk.step, open_within,
        ihInner hinner, Walk.step, close_within hend, ihRest hrest, Forest.sites, Scanned.add_append,
        Scanned.add_append]
  | void tag attrs rest ih =>
      rw [Forest.events, List.foldl_cons, Walk.step, openClosed_within, ih hf, Forest.sites,
        Scanned.add_append]
  | stray tag rest ih =>
      rw [Forest.events, List.foldl_cons, Walk.step, close_stray hf.1, ih hf.2, Forest.sites]
  | interp expr p rest ih =>
      rw [Forest.events, List.foldl_cons, Walk.step, judge_within, ih hf, Forest.sites, ← Scanned.add_append]
      rfl
  | gap p reason rest ih =>
      have hgap : (within label es around out).gap p reason =
          within label es around (out.add label es [⟨.gap p reason, around⟩]) := judge_within (.gap p reason)
      rw [Forest.events, List.foldl_cons, Walk.step, hgap, ih hf, Forest.sites, ← Scanned.add_append]
      rfl

end Walking

/-- **Locals hide exactly their scope.** Where the tags of the events nest, the events are those of a
forest, and what the walk keeps of each of its expressions is what no ref of the template, no local of
an element around it and no `$event` of its own binding drops. -/
theorem walk_hides {es : List Event} (h : nests [] es = true) :
    (∃ f : Forest, f.Spells es) ∧ ∀ f : Forest, f.Spells es →
      (walk es).reads = (f.sites toldLine []).flatMap (Site.kept toldLine es) ∧
      (walk es).gaps = (f.sites toldLine []).flatMap Site.gaps := by
  refine ⟨exists_forest h, ?_⟩
  rintro f ⟨hes, hf⟩
  have hwalk := @walk_forest toldLine es [] ⟨[], []⟩ f hf
  rw [hes] at hwalk
  unfold walk walkWith
  show (List.foldl _ (within toldLine es [] ⟨[], []⟩) es).out.reads = _ ∧
    (List.foldl _ (within toldLine es [] ⟨[], []⟩) es).out.gaps = _
  rw [hwalk]
  exact ⟨rfl, rfl⟩

/-- `<ul *ngFor="let i of xs">{{i}}</UL></p>{{i}}`: a local, its element's end tag, a stray one. -/
def listForest : Forest :=
  .element "ul".toList [⟨"*ngFor".toList, ⟨4, 1⟩, some ("let i of xs".toList, ⟨12, 1⟩)⟩]
    (.interp "i".toList ⟨27, 1⟩ .nil) "UL".toList
    (.stray "p".toList (.interp "i".toList ⟨41, 1⟩ .nil))

theorem walk_hides_list : (walk listForest.events).reads = [("xs", 1), ("i", 1)] ∧
    (walk listForest.events).reads =
      (listForest.sites toldLine []).flatMap (Site.kept toldLine listForest.events) := by
  have hproper : listForest.Proper [] := by
    unfold listForest
    simp only [Forest.Proper, and_true]
    decide +kernel
  exact ⟨by decide +kernel, ((walk_hides (by decide +kernel)).2 listForest ⟨rfl, hproper⟩).1⟩

end Devscout.Template
