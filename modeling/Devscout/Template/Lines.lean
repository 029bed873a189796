/-
# Devscout.Template.Lines -- the lines of what a template reads

The scan tells a line for each construct, and the reads of an expression are told theirs by
a lexer that starts at the line of the expression. To say that a line is exact, the same walk
is done with the tokens labelled by their offsets in the template: both walks keep the same
names, and the line of a read has to be the first one plus the newlines before the offset.

The lines of the constructs always are. That of a read is, exactly where no string of its
expression escapes a newline before it: the lexer steps over the byte behind a backslash
without counting it. The walk with the tokens labelled by these newlines tells where.
-/

import Devscout.Template.Scope
import Mathlib

namespace Devscout.Template

open Lib

/-! ## Two walks over the same events -/

/-- What an expression comes to under two labels: reads of the same names, or the same gap. -/
inductive SameFound (Q : String → Nat → Nat → Prop) (G : Place → Prop) : Found → Found → Prop
  | reads {rs rs' : List Read} {eventLocal : Bool} (h : List.Forall₂ (SameRead Q) rs rs') :
      SameFound Q G (.reads rs eventLocal) (.reads rs' eventLocal)
  | gap {p : Place} {reason : GapReason} (h : G p) : SameFound Q G (.gap p reason) (.gap p reason)

/-- Two walks with the same frames that kept reads of the same names. -/
structure SameWalk (Q : String → Nat → Nat → Prop) (G : Place → Prop) (w w' : Walk) : Prop where
  refs : w.refs = w'.refs
  frames : w.frames = w'.frames
  reads : List.Forall₂ (SameRead Q) w.out.reads w'.out.reads
  gaps : ∀ g ∈ w.out.gaps, G g.1

section Walks

variable {Q : String → Nat → Nat → Prop} {G : Place → Prop} {w w' : Walk} {label label' : Label}

theorem SameWalk.hidden (h : SameWalk Q G w w') (name : String) : w.hidden name = w'.hidden name := by
  unfold Walk.hidden
  rw [h.refs, h.frames]

theorem SameWalk.judge (h : SameWalk Q G w w') {found found' : Found} (hfound : SameFound Q G found found') :
    SameWalk Q G (w.judge found) (w'.judge found') := by
  rcases hfound with ⟨hrs⟩ | ⟨hgap⟩
  · refine ⟨h.refs, h.frames, List.rel_append h.reads (List.rel_filter ?_ hrs), h.gaps⟩
    rintro r r' ⟨hname, -⟩
    beta_reduce
    rw [hname, h.hidden r'.1]
  · exact ⟨h.refs, h.frames, h.reads,
      List.forall_mem_append.mpr ⟨h.gaps, List.forall_mem_singleton.mpr hgap⟩⟩

theorem SameWalk.judge_all (h : SameWalk Q G w w') {founds founds' : List Found}
    (hfounds : List.Forall₂ (SameFound Q G) founds founds') :
    SameWalk Q G (founds.foldl Walk.judge w) (founds'.foldl Walk.judge w') := by
  induction hfounds generalizing w w' with
  | nil => exact h
  | cons hfound _ ih => exact ih (h.judge hfound)

/-- What two walks have to agree on in an attribute: its locals, and what its expressions come to. -/
structure SameAttr (Q : String → Nat → Nat → Prop) (G : Place → Prop) (label label' : Label) (tag : Str)
    (a : Attr) : Prop where
  locals : localsOf tag a (microFor label tag a) = localsOf tag a (microFor label' tag a)
  found : List.Forall₂ (SameFound Q G) (attrFound label tag a (microFor label tag a))
    (attrFound label' tag a (microFor label' tag a))

theorem SameWalk.open_ (h : SameWalk Q G w w') {tag : Str} {attrs : List Attr} (closes : Bool)
    (hattrs : ∀ a ∈ attrs, SameAttr Q G label label' tag a) :
    SameWalk Q G (w.open_ label tag attrs closes) (w'.open_ label' tag attrs closes) := by
  have hlocals : attrs.flatMap (fun a => localsOf tag a (microFor label tag a)) =
      attrs.flatMap (fun a => localsOf tag a (microFor label' tag a)) :=
    List.flatMap_congr fun a ha => (hattrs a ha).locals
  have hfounds : List.Forall₂ (SameFound Q G)
      (attrs.flatMap fun a => attrFound label tag a (microFor label tag a))
      (attrs.flatMap fun a => attrFound label' tag a (microFor label' tag a)) := by
    clear hlocals
    induction attrs with
    | nil => exact .nil
    | cons a attrs ih =>
        obtain ⟨ha, hrest⟩ := List.forall_mem_cons.mp hattrs
        exact List.rel_append ha.found (ih hrest)
  have hinner : SameWalk Q G
      { w with frames := (tag, attrs.flatMap fun a => localsOf tag a (microFor label tag a)) :: w.frames }
      { w' with frames := (tag, attrs.flatMap fun a => localsOf tag a (microFor label' tag a)) :: w'.frames } :=
    ⟨h.refs, by rw [hlocals, h.frames], h.reads, h.gaps⟩
  have hafter := hinner.judge_all hfounds
  unfold Walk.open_ Walk.attr
  dsimp only
  rw [List.flatMap_map, List.flatMap_map, List.foldl_map, List.foldl_map, ← List.foldl_flatMap,
    ← List.foldl_flatMap]
  split
  · exact ⟨hafter.refs, by rw [hafter.frames], hafter.reads, hafter.gaps⟩
  · exact hafter

theorem SameWalk.close (h : SameWalk Q G w w') (tag : Str) : SameWalk Q G (w.close tag) (w'.close tag) := by
  unfold Walk.close
  rw [h.frames]
  split
  · exact ⟨h.refs, rfl, h.reads, h.gaps⟩
  · exact h

end Walks

/-! ## Sound events -/

section Events

variable {Q : String → Nat → Nat → Prop} {label label' : Label} {text : Str} {firstLine : Nat} {p : Place}

/-- The first line plus the newlines before an offset. -/
def exactLine (text : Str) (firstLine i : Nat) : Nat := firstLine + newlines ((bytesOf text).take i)

/-- The line of a place is exact. -/
def PlaceExact (text : Str) (firstLine : Nat) (p : Place) : Prop := p.line = exactLine text firstLine p.i

/-- Two labels of the tokens of any expression that stands in the template. -/
def SameLabels (Q : String → Nat → Nat → Prop) (label label' : Label) (text : Str) (firstLine : Nat) :
    Prop :=
  ∀ x : Str × Place, Stands text firstLine x.1 x.2 →
    Option.Rel (List.Forall₂ (SameToken Q)) (tokensOf label x) (tokensOf label' x)

theorem Stands.exact {value : Str} (h : Stands text firstLine value p) : PlaceExact text firstLine p := by
  obtain ⟨before, after, rfl, hi, hline⟩ := h
  rw [PlaceExact, exactLine, hline, hi, bytesOf, Utf8.encode_append, List.take_left]

theorem Sound.stands_nil (h : Sound text firstLine p) : Stands text firstLine [] p := by
  obtain ⟨before, after, rfl, hi⟩ := h.cut
  refine ⟨before, after, rfl, hi, ?_⟩
  rw [h.line, hi, bytesOf, Utf8.encode_append, List.take_left]

theorem AttrSound.stands {a : Attr} (h : AttrSound text firstLine a) :
    Stands text firstLine a.text.1 a.text.2 := by
  unfold Attr.text
  cases hvalue : a.value with
  | none => exact h.place.stands_nil
  | some x => exact h.value x.1 x.2 hvalue

theorem sameFound_of_parsed {x : Str × Place} {parsed parsed' : Option (List Read)}
    (hx : Stands text firstLine x.1 x.2) (eventLocal : Bool) (h : SameReads Q parsed parsed') :
    SameFound Q (PlaceExact text firstLine) (foundOf parsed x.2 eventLocal) (foundOf parsed' x.2 eventLocal) := by
  rcases h with hrs | _
  · exact .reads hrs
  · exact .gap hx.exact

variable (hlabels : SameLabels Q label label' text firstLine)
include hlabels

theorem SameLabels.binding {x : Str × Place} (hx : Stands text firstLine x.1 x.2) :
    SameReads Q (bindingReads label x) (bindingReads label' x) := by
  have htoks := hlabels x hx
  unfold bindingReads
  generalize tokensOf label x = toks, tokensOf label' x = toks' at htoks ⊢
  rcases htoks with htoks | _
  · exact parseBinding_blind htoks
  · exact .none

theorem SameLabels.action {x : Str × Place} (hx : Stands text firstLine x.1 x.2) :
    SameReads Q (actionReads label x) (actionReads label' x) := by
  have htoks := hlabels x hx
  unfold actionReads
  generalize tokensOf label x = toks, tokensOf label' x = toks' at htoks ⊢
  rcases htoks with htoks | _
  · exact parseAction_blind htoks
  · exact .none

theorem SameLabels.micro {x : Str × Place} (hx : Stands text firstLine x.1 x.2) :
    SameMicro Q (microOf label x) (microOf label' x) := by
  have htoks := hlabels x hx
  unfold microOf
  generalize tokensOf label x = toks, tokensOf label' x = toks' at htoks ⊢
  rcases htoks with htoks | _
  · exact parseMicro_blind htoks
  · exact .none

/-- The interpolations of an attribute. -/
theorem SameLabels.pieces {value : Str} (hvalue : Stands text firstLine value p) :
    List.Forall₂ (SameFound Q (PlaceExact text firstLine)) ((piecesOf value p).map (pieceFound label))
      ((piecesOf value p).map (pieceFound label')) := by
  obtain ⟨pieces, hpieces, hall, -⟩ := interpolations_spec value p
  rw [interpolations_eq] at hpieces
  obtain rfl := Option.some.inj hpieces
  rw [List.forall₂_map_left_iff, List.forall₂_map_right_iff, List.forall₂_same]
  intro piece hpiece
  cases hall piece hpiece with
  | ok hx => exact sameFound_of_parsed (hvalue.shift hx) false (hlabels.binding (hvalue.shift hx))
  | error hq => exact .gap (hvalue.gap hq)

theorem SameLabels.attr {a : Attr} (tag : Str) (ha : AttrSound text firstLine a) :
    SameAttr Q (PlaceExact text firstLine) label label' tag a := by
  have hx := ha.stands
  have hmicro := hlabels.micro hx
  have hone : ∀ {found found' : Found}, SameFound Q (PlaceExact text firstLine) found found' →
      List.Forall₂ (SameFound Q (PlaceExact text firstLine)) [found] [found'] := fun h => .cons h .nil
  constructor
  · unfold localsOf microFor
    cases hkind : bindingOf tag a.name with
    | structural =>
        rw [if_pos rfl, if_pos rfl, Option.join_some, Option.join_some]
        generalize microOf label a.text = m, microOf label' a.text = m' at hmicro ⊢
        rcases hmicro with _ | _ <;> rfl
    | _ => rfl
  · unfold attrFound microFor
    cases hkind : bindingOf tag a.name with
    | structural =>
        rw [if_pos rfl, if_pos rfl]
        refine hone (sameFound_of_parsed hx false ?_)
        generalize microOf label a.text = m, microOf label' a.text = m' at hmicro ⊢
        rcases hmicro with _ | hreads
        · exact .none
        · exact .some hreads
    | event => exact hone (sameFound_of_parsed hx true (hlabels.action hx))
    | twoWay => exact hone (sameFound_of_parsed hx true (hlabels.binding hx))
    | property => exact hone (sameFound_of_parsed hx false (hlabels.binding hx))
    | ref => exact hone (.reads .nil)
    | letLocal => exact hone (.reads .nil)
    | plain => exact hlabels.pieces hx

/-- **The same walk under two labels**, step by step. -/
theorem SameLabels.step {w w' : Walk} {e : Event} (h : SameWalk Q (PlaceExact text firstLine) w w')
    (he : EventSound text firstLine e) :
    SameWalk Q (PlaceExact text firstLine) (w.step label e) (w'.step label' e) := by
  cases he with
  | @open_ tag attrs closes hattrs => exact h.open_ closes fun a ha => hlabels.attr tag (hattrs a ha)
  | close => exact h.close _
  | @interp expr p hx =>
      have hfound := hlabels.binding (x := (expr, p)) hx
      exact h.judge (sameFound_of_parsed (x := (expr, p)) hx false hfound)
  | gap hline => exact h.judge (.gap hline)

theorem SameLabels.walk {es : List Event} (hes : ∀ e ∈ es, EventSound text firstLine e) :
    List.Forall₂ (SameRead Q) (walkWith label es).reads (walkWith label' es).reads ∧
      ∀ g ∈ (walkWith label es).gaps, PlaceExact text firstLine g.1 := by
  have hrun : ∀ (es : List Event) (w w' : Walk), (∀ e ∈ es, EventSound text firstLine e) →
      SameWalk Q (PlaceExact text firstLine) w w' →
      SameWalk Q (PlaceExact text firstLine) (es.foldl (Walk.step label) w) (es.foldl (Walk.step label') w') := by
    intro es
    induction es with
    | nil => exact fun _ _ _ h => h
    | cons e es ih =>
        intro w w' hes h
        obtain ⟨he, hrest⟩ := List.forall_mem_cons.mp hes
        exact ih _ _ hrest (hlabels.step h he)
  have hwalk := hrun es ⟨templateRefs es, [], ⟨[], []⟩⟩ _ hes
    ⟨rfl, rfl, .nil, fun g hg => absurd hg List.not_mem_nil⟩
  exact ⟨hwalk.reads, hwalk.gaps⟩

end Events

/-! ## Labels -/

/-- Where a token starts in the template. -/
def offsetOf : Label := fun _ p l => p.i + l.i

/-- The newlines that the strings of its expression escape in front of a token. -/
def escapedBefore : Label := fun x _ l => escapedNewlines none ((Utf8.encode x).take l.i)

/-- Both of them. -/
def offsetAndEscaped : Label := fun x p l => Nat.pair (offsetOf x p l) (escapedBefore x p l)

/-- The walk with the reads labelled by their offsets. -/
def located (es : List Event) : Scanned := walkWith offsetOf es

/-- A name stands at an offset of the template. -/
def NameAt (text : Str) (name : String) (i : Nat) : Prop :=
  Utf8.encode name.toList <+: (bytesOf text).drop i

section Labelled

variable {text : Str} {firstLine : Nat} {Q : String → Nat → Nat → Prop}

/-- Two labels of one expression, token by token. -/
theorem sameLabels_of {label label' : Label}
    (h : ∀ x p, Stands text firstLine x p → ∀ l, Told (Utf8.encode x) 0 p.line l →
      ∀ name, l.tok = .ident name → Q name (label x p l) (label' x p l)) :
    SameLabels Q label label' text firstLine := by
  rintro ⟨x, p⟩ hx
  unfold tokensOf
  dsimp only
  cases hlex : lex x p.line with
  | none => exact .none
  | some ls =>
      refine .some ?_
      rw [List.forall₂_map_left_iff, List.forall₂_map_right_iff, List.forall₂_same]
      exact fun l hl => ⟨rfl, h x p hx l (lexFrom_spec hlex l hl)⟩

/-- What an identifier is told: it stands at its offset, and its line is the exact one but for the
newlines that strings escape in front of it. -/
theorem told_of_stands {x : Str} {p : Place} {l : Lexeme} {name : String} (hx : Stands text firstLine x p)
    (hl : Told (Utf8.encode x) 0 p.line l) (htok : l.tok = .ident name) :
    NameAt text name (offsetOf x p l) ∧
      toldLine x p l + escapedBefore x p l = exactLine text firstLine (offsetOf x p l) := by
  obtain ⟨k, hk, hend, hline, hname⟩ := hl
  rw [Nat.zero_add] at hk
  obtain rfl := hk
  refine ⟨?_, ?_⟩
  · obtain ⟨rest, hrest⟩ := hname name htok
    obtain ⟨before, after, rfl, hi, -⟩ := hx
    refine ⟨rest ++ Utf8.encode after, ?_⟩
    rw [offsetOf, hi, bytesOf, Utf8.encode_append, Utf8.encode_append, List.drop_length_add_append,
      List.drop_append_of_le_length hend, ← hrest, List.append_assoc]
  · show l.line + escapedNewlines none ((Utf8.encode x).take l.i) = _
    rw [hline, hx.take hend]
    rfl

theorem sameLabels_told : SameLabels (fun name line d => NameAt text name d.unpair.1 ∧
      line + d.unpair.2 = exactLine text firstLine d.unpair.1) toldLine offsetAndEscaped text firstLine :=
  sameLabels_of fun x p hx l hl name htok => by
    unfold offsetAndEscaped
    rw [Nat.unpair_pair]
    exact told_of_stands hx hl htok

theorem sameLabels_offset :
    SameLabels (fun _ d i => d.unpair.1 = i) offsetAndEscaped offsetOf text firstLine :=
  sameLabels_of fun x p _ l _ _ _ => by rw [offsetAndEscaped, Nat.unpair_pair]

theorem sameLabels_escaped :
    SameLabels (fun _ d n => d.unpair.2 = n) offsetAndEscaped escapedBefore text firstLine :=
  sameLabels_of fun x p _ l _ _ _ => by rw [offsetAndEscaped, Nat.unpair_pair]

end Labelled

/-! ## Exact lines -/

/-- A read has the line of the offset it stands at. -/
def ReadExact (text : Str) (firstLine : Nat) (r o : Read) : Prop :=
  r.1 = o.1 ∧ NameAt text o.1 o.2 ∧ r.2 = exactLine text firstLine o.2

/-- The place that an interpolation or a gap carries. -/
def Event.place? : Event → Option Place
  | .interp _ p => some p
  | .gap p _ => some p
  | _ => none

/-- The lines of a template are exact: those of the interpolations and gaps that the scan finds, those
of the gaps that the walk is left with, and those of the reads it keeps. -/
structure LinesExact (text : Str) (firstLine : Nat) (es : List Event) : Prop where
  events : ∀ e ∈ es, ∀ p, e.place? = some p → PlaceExact text firstLine p
  gaps : ∀ g ∈ (walk es).gaps, PlaceExact text firstLine g.1
  reads : List.Forall₂ (ReadExact text firstLine) (walk es).reads (located es).reads

section Exact

variable {text : Str} {firstLine : Nat}

theorem EventSound.exact {e : Event} {p : Place} (h : EventSound text firstLine e) (hp : e.place? = some p) :
    PlaceExact text firstLine p := by
  cases h with
  | open_ => cases hp
  | close => cases hp
  | interp hx =>
      obtain rfl := Option.some.inj hp
      exact hx.exact
  | gap hline =>
      obtain rfl := Option.some.inj hp
      exact hline

/-- The line of a read and the newlines left out of it make up the exact one, so it is exact where none
is left out. -/
theorem reads_exact_iff {told both at_ escaped : List Read}
    (htold : List.Forall₂ (SameRead fun name line d => NameAt text name d.unpair.1 ∧
      line + d.unpair.2 = exactLine text firstLine d.unpair.1) told both)
    (hat : List.Forall₂ (SameRead fun _ d i => d.unpair.1 = i) both at_)
    (hescaped : List.Forall₂ (SameRead fun _ d n => d.unpair.2 = n) both escaped) :
    List.Forall₂ (ReadExact text firstLine) told at_ ↔ ∀ m ∈ escaped, m.2 = 0 := by
  induction htold generalizing at_ escaped with
  | nil =>
      rcases hat with _ | _
      rcases hescaped with _ | _
      exact ⟨fun _ m hm => absurd hm List.not_mem_nil, fun _ => .nil⟩
  | @cons r d told both hr _ ih =>
      rcases hat with _ | ⟨ho, hat⟩
      rcases hescaped with _ | ⟨hm, hescaped⟩
      rename_i o at_ m escaped
      obtain ⟨hname, hstands, hsum⟩ := hr
      obtain ⟨hname', hoffset⟩ := ho
      have hone : ReadExact text firstLine r o ↔ m.2 = 0 := by
        rw [hname, hoffset] at hstands
        rw [hoffset, hm.2] at hsum
        constructor
        · rintro ⟨-, -, hline⟩
          omega
        · intro hzero
          exact ⟨hname.trans hname', hname' ▸ hstands, by omega⟩
      rw [List.forall₂_cons, List.forall_mem_cons, ih hat hescaped, hone]

/-- **When the lines are exact.** On any text, exactly when no string escapes a newline in front of an
identifier that its expression reads. -/
theorem linesExact_iff (text : Str) (firstLine : Nat) :
    ∃ es, events text firstLine = some es ∧
      (LinesExact text firstLine es ↔ ∀ m ∈ (walkWith escapedBefore es).reads, m.2 = 0) := by
  obtain ⟨s, e, hs, -, -, hsound⟩ := runFrom_spec ((bytesOf text).length + 1)
    (sound_start text firstLine) (show _ < 0 + ((bytesOf text).length + 1) by omega)
  have hevents : ∀ e ∈ s.pieces.flatMap Piece.events, EventSound text firstLine e := by
    intro e he
    obtain ⟨piece, hpiece, he⟩ := List.mem_flatMap.mp he
    exact hsound piece hpiece e he
  refine ⟨s.pieces.flatMap Piece.events, Option.map_eq_some_iff.mpr ⟨s, hs, rfl⟩, ?_⟩
  obtain ⟨htold, hgaps⟩ := sameLabels_told.walk hevents
  have hreads := reads_exact_iff htold (sameLabels_offset.walk hevents).1 (sameLabels_escaped.walk hevents).1
  constructor
  · intro h
    exact hreads.mp h.reads
  · intro hnone
    exact ⟨fun e he p hp => (hevents e he).exact hp, hgaps, hreads.mpr hnone⟩

/-- In the interpolation of `'a\⏎' + x` the `x` is on the second line, and is told to be on the first. -/
theorem escapedNewline_line_wrong :
    ¬∀ (text : Str) (firstLine : Nat), ∃ es, events text firstLine = some es ∧ LinesExact text firstLine es := by
  intro h
  obtain ⟨es, hes, hexact⟩ := h "\x7b\x7b'a\\\n' + x\x7d\x7d".toList 1
  obtain rfl : es = [.interp "'a\\\n' + x".toList ⟨2, 1⟩] :=
    Option.some.inj (hes.symm.trans (by decide +kernel))
  have htold : (walk [.interp "'a\\\n' + x".toList ⟨2, 1⟩]).reads = [("x", 1)] := by decide +kernel
  have hat : (located [.interp "'a\\\n' + x".toList ⟨2, 1⟩]).reads = [("x", 10)] := by decide +kernel
  have hreads := hexact.reads
  rw [htold, hat] at hreads
  obtain ⟨⟨-, -, hline⟩, -⟩ := List.forall₂_cons.mp hreads
  exact absurd hline (by decide +kernel)

end Exact

end Devscout.Template
