/-
# Devscout.CSharp.Conditional -- the frame stack reads the tree of groups

A file's directive lines form a tree: sections of lines and groups, a group with its
arms, each a header line and a section, and its `#endif`, which only the groups still
open at the end of the file lack. Read recursively, a group's selected arm is the
first one whose header holds under the symbols in force at the group, an `#else`
always holding, and no arm at all when the group itself is dead; a line is live when
every group around it has it in its selected arm.

The one-pass stack of frames computes exactly that reading.
-/

import Devscout.CSharp.Preproc

namespace Devscout.Preproc

open Lib

/-! ## The tree -/

mutual

/-- Lines and groups, one after the other. -/
inductive Section where
  | nil
  | line (l : SourceLine) (rest : Section)
  | group (arms : Arms) (close : Option SourceLine) (rest : Section)

/-- The arms of one group, each under its header line. -/
inductive Arms where
  | nil
  | cons (header : SourceLine) (body : Section) (more : Arms)

end

mutual

/-- The lines of a section, in file order. -/
def Section.lines : Section → List SourceLine
  | .nil => []
  | .line l rest => l :: rest.lines
  | .group arms close rest => arms.lines ++ (close.toList ++ rest.lines)

def Arms.lines : Arms → List SourceLine
  | .nil => []
  | .cons header body more => header :: (body.lines ++ more.lines)

end

def Arms.isNil : Arms → Bool
  | .nil => true
  | .cons .. => false

def Section.isNil : Section → Bool
  | .nil => true
  | _ => false

mutual

/-- Only a group that runs to the end of the file lacks its `#endif`. -/
def Section.shaped (atEnd : Bool) : Section → Bool
  | .nil => true
  | .line _ rest => rest.shaped atEnd
  | .group arms close rest =>
      arms.shaped close.isNone && (close.isSome || atEnd && rest.isNil) && rest.shaped atEnd

def Arms.shaped (openEnd : Bool) : Arms → Bool
  | .nil => true
  | .cons _ body more => body.shaped (openEnd && more.isNil) && more.shaped openEnd

end

/-! ## Reading it -/

/-- What the lines read so far leave behind: the symbols and the lexical state. -/
structure Point where
  symbols : Symbols
  state : LexState

/-- Whether a header holds: an `#if` or `#elif` by its condition, an `#else` always. -/
def headerHolds (symbols : Symbols) (header : SourceLine) : Bool :=
  match parseDirective header.bytes header.first with
  | some d =>
      match keywordOf d.keyword with
      | .group .if_ | .group .elif => holds symbols d.rest
      | .group .else_ => true
      | _ => false
  | none => false

/-- The selected arm of a live group. -/
def Arms.selected (symbols : Symbols) : Arms → Option Nat
  | .nil => none
  | .cons header _ more =>
      if headerHolds symbols header then some 0 else (more.selected symbols).map (· + 1)

/-- The selected arm, counted from the next arm on. -/
def fromNext : Option Nat → Option Nat
  | some (n + 1) => some n
  | _ => none

/-- One line that heads no group: what it leaves, and whether it is kept. -/
def readLine (live : Bool) (pt : Point) (l : SourceLine) : Point × Bool :=
  if live then
    match directiveAt true pt.state l with
    | some d =>
        match keywordOf d.keyword with
        | .symbol k => ({ pt with symbols := processSymbol k d.rest pt.symbols [] }, false)
        | _ => (pt, true)
    | none => ({ pt with state := scanLine pt.state l.bytes }, true)
  else (pt, false)

mutual

/-- The recursive reading: which lines of a section are kept. -/
def Section.read (live : Bool) (pt : Point) : Section → Point × List Bool
  | .nil => (pt, [])
  | .line l rest =>
      let here := readLine live pt l
      let after := rest.read live here.1
      (after.1, here.2 :: after.2)
  | .group arms close rest =>
      let inside := arms.read (if live then arms.selected pt.symbols else none) pt
      let after := rest.read live inside.1
      (after.1, inside.2 ++ (close.toList.map (fun _ => false) ++ after.2))

def Arms.read (selected : Option Nat) (pt : Point) : Arms → Point × List Bool
  | .nil => (pt, [])
  | .cons _ body more =>
      let inside := body.read (selected == some 0) pt
      let after := more.read (fromNext selected) inside.1
      (after.1, false :: (inside.2 ++ after.2))

end

/-- The kept lines, arm by arm. -/
def Arms.marks (selected : Option Nat) (pt : Point) : Arms → List (List Bool)
  | .nil => []
  | .cons _ body more =>
      let inside := body.read (selected == some 0) pt
      inside.2 :: more.marks (fromNext selected) inside.1

mutual

/-- At most one arm of every group keeps any line. -/
def Section.oneArm (live : Bool) (pt : Point) : Section → Prop
  | .nil => True
  | .line l rest => rest.oneArm live (readLine live pt l).1
  | .group arms _ rest =>
      let selected := if live then arms.selected pt.symbols else none
      (arms.marks selected pt).countP (·.any id) ≤ 1 ∧ arms.oneArm selected pt ∧
        rest.oneArm live (arms.read selected pt).1

def Arms.oneArm (selected : Option Nat) (pt : Point) : Arms → Prop
  | .nil => True
  | .cons _ body more =>
      body.oneArm (selected == some 0) pt ∧
        more.oneArm (fromNext selected) (body.read (selected == some 0) pt).1

end

/-! ## Which lines are the directive lines -/

/-- A line taken for the directive of some group. -/
def TakenFor (k : GroupKeyword) (live : Bool) (state : LexState) (l : SourceLine) : Prop :=
  ∃ d, directiveAt live state l = some d ∧ keywordOf d.keyword = .group k

/-- Whether the last arm read is live, `live` before any. -/
def Arms.endsLive (live : Bool) (selected : Option Nat) : Arms → Bool
  | .nil => live
  | .cons _ _ more => more.endsLive (selected == some 0) (fromNext selected)

mutual

/-- The headers and closing lines of the tree are the lines taken for such, each in the
region it stands in, and no other line is. -/
def Section.recognised (live : Bool) (pt : Point) : Section → Prop
  | .nil => True
  | .line l rest =>
      (∀ k, ¬TakenFor k live pt.state l) ∧ rest.recognised live (readLine live pt l).1
  | .group arms close rest =>
      let selected := if live then arms.selected pt.symbols else none
      let after := (arms.read selected pt).1
      arms.isNil = false ∧ arms.recognised true live selected pt ∧
        (∀ l, close = some l → TakenFor .endif (arms.endsLive live selected) after.state l) ∧
        rest.recognised live after

def Arms.recognised (first live : Bool) (selected : Option Nat) (pt : Point) : Arms → Prop
  | .nil => True
  | .cons header body more =>
      (if first then TakenFor .if_ live pt.state header
        else TakenFor .elif live pt.state header ∨ TakenFor .else_ live pt.state header) ∧
      body.recognised (selected == some 0) pt ∧
      more.recognised false (selected == some 0) (fromNext selected)
        (body.read (selected == some 0) pt).1

end

/-! ## Dead sections -/

mutual

/-- A dead section keeps nothing and changes nothing. -/
theorem Section.read_dead (pt : Point) : ∀ sec : Section,
    (sec.read false pt).1 = pt ∧ (sec.read false pt).2.any id = false
  | .nil => ⟨rfl, rfl⟩
  | .line _ rest => by
      obtain ⟨hpt, hnone⟩ := Section.read_dead pt rest
      exact ⟨hpt, by simpa [Section.read, readLine] using hnone⟩
  | .group arms close rest => by
      obtain ⟨hpt, hnone⟩ := Arms.read_dead pt arms
      obtain ⟨hpt', hnone'⟩ := Section.read_dead pt rest
      simp only [Section.read, Bool.false_eq_true, if_false, hpt]
      refine ⟨hpt', ?_⟩
      rw [List.any_append, List.any_append, hnone, hnone']
      cases close <;> rfl

theorem Arms.read_dead (pt : Point) : ∀ arms : Arms,
    (arms.read none pt).1 = pt ∧ (arms.read none pt).2.any id = false
  | .nil => ⟨rfl, rfl⟩
  | .cons header body more => by
      obtain ⟨hpt, hnone⟩ := Section.read_dead pt body
      obtain ⟨hpt', hnone'⟩ := Arms.read_dead pt more
      have hlive : ((none : Option Nat) == some 0) = false := rfl
      simp only [Arms.read, hlive, fromNext, hpt]
      refine ⟨hpt', ?_⟩
      rw [List.any_cons, List.any_append, hnone, hnone']
      rfl

end

theorem Arms.marks_dead (pt : Point) : ∀ arms : Arms,
    (arms.marks none pt).countP (·.any id) = 0
  | .nil => rfl
  | .cons header body more => by
      obtain ⟨hpt, hnone⟩ := Section.read_dead pt body
      have hlive : ((none : Option Nat) == some 0) = false := rfl
      simp only [Arms.marks, hlive, fromNext, hpt]
      rw [List.countP_cons_of_neg (by simp [hnone])]
      exact Arms.marks_dead pt more

theorem Arms.countP_marks (selected : Option Nat) (pt : Point) : ∀ arms : Arms,
    (arms.marks selected pt).countP (·.any id) ≤ 1
  | .nil => Nat.zero_le 1
  | .cons header body more => by
      simp only [Arms.marks]
      by_cases hsel : selected = some 0
      · subst hsel
        have hdead := Arms.marks_dead (body.read ((some 0 : Option Nat) == some 0) pt).1 more
        rw [List.countP_cons]
        simp only [fromNext, hdead]
        split <;> omega
      · have hlive : (selected == some 0) = false := by simpa using hsel
        have hnone := (Section.read_dead pt body).2
        rw [hlive, List.countP_cons_of_neg (by simp [hnone])]
        exact Arms.countP_marks _ _ more

mutual

theorem Section.oneArm_of (live : Bool) (pt : Point) : ∀ sec : Section, sec.oneArm live pt
  | .nil => trivial
  | .line _ rest => Section.oneArm_of live _ rest
  | .group arms _ rest =>
      ⟨Arms.countP_marks _ pt arms, Arms.oneArm_of _ pt arms, Section.oneArm_of live _ rest⟩

theorem Arms.oneArm_of (selected : Option Nat) (pt : Point) : ∀ arms : Arms, arms.oneArm selected pt
  | .nil => trivial
  | .cons _ body more => ⟨Section.oneArm_of _ pt body, Arms.oneArm_of _ _ more⟩

end

/-! ## The stack of frames -/

/-- The tracker at a point, with its stack. -/
def Point.tracker (pt : Point) (stack : List Frame) : Tracker := ⟨pt.symbols, stack, pt.state⟩

theorem keptLines_cons (t : Tracker) (l : SourceLine) (rest : List SourceLine) :
    keptLines t (l :: rest) = (step t l).2 :: keptLines (step t l).1 rest := rfl

/-- A line of no group: the tracker reads it as the tree does. -/
theorem step_line {live : Bool} {pt : Point} {stack : List Frame} {l : SourceLine}
    (hlive : currentActive stack = live) (hline : ∀ k, ¬TakenFor k live pt.state l) :
    step (pt.tracker stack) l = ((readLine live pt l).1.tracker stack, (readLine live pt l).2) := by
  simp only [step, Point.tracker, hlive, readLine]
  cases hd : directiveAt live pt.state l with
  | none =>
      cases live with
      | false => rfl
      | true => simp [hd]
  | some d =>
      cases hk : keywordOf d.keyword with
      | group k => exact absurd ⟨d, hd, hk⟩ (hline k)
      | symbol k =>
          cases live with
          | false => simp [hk, processSymbol, hlive]
          | true =>
              have hnil : currentActive [] = true := rfl
              simp [hd, hk, processSymbol, hlive, hnil]
      | other =>
          cases live with
          | false => simp [hk]
          | true => simp [hd, hk]

/-- A directive of a group: the line is blanked and the frames move. -/
theorem step_group {k : GroupKeyword} {live : Bool} {pt : Point} {stack : List Frame}
    {l : SourceLine} (hlive : currentActive stack = live) {d : DirectiveLine}
    (hd : directiveAt live pt.state l = some d) (hk : keywordOf d.keyword = .group k) :
    step (pt.tracker stack) l = (pt.tracker (processGroup k d.rest pt.symbols stack), false) := by
  simp only [step, Point.tracker, hlive, hd, hk]

theorem parseDirective_of_directiveAt {live : Bool} {state : LexState} {l : SourceLine}
    {d : DirectiveLine} (h : directiveAt live state l = some d) :
    parseDirective l.bytes l.first = some d := by
  rw [directiveAt] at h
  split at h
  · cases h
  · exact h

/-- What a header of each kind holds by. -/
def keywordHolds (symbols : Symbols) (rest : Bytes) : GroupKeyword → Bool
  | .if_ | .elif => holds symbols rest
  | .else_ => true
  | .endif => false

theorem headerHolds_of {symbols : Symbols} {l : SourceLine} {d : DirectiveLine} {k : GroupKeyword}
    (hd : parseDirective l.bytes l.first = some d) (hk : keywordOf d.keyword = .group k) :
    headerHolds symbols l = keywordHolds symbols d.rest k := by
  rw [headerHolds, hd]
  simp only [hk]
  cases k <;> rfl

/-- What a frame says about the arms still to come: none of them is selected when the
group is dead or has taken an arm, else the first one that holds. -/
def Awaits (frame : Frame) (selected : Option Nat) (symbols : Symbols) (arms : Arms) : Prop :=
  selected = (if frame.parentActive && !frame.taken then arms.selected symbols else none) ∧
    (frame.active = true → frame.taken = true)

/-- The first header opens the frame of its group. -/
theorem step_if {live : Bool} {pt : Point} {stack : List Frame} {header : SourceLine}
    (body : Section) (more : Arms) (hlive : currentActive stack = live)
    (htaken : TakenFor .if_ live pt.state header) :
    ∃ frame, step (pt.tracker stack) header = (pt.tracker (frame :: stack), false) ∧
      (frame.active = ((if live then (Arms.cons header body more).selected pt.symbols else none) ==
        some 0)) ∧
      Awaits frame (fromNext (if live then (Arms.cons header body more).selected pt.symbols else none))
        pt.symbols more := by
  obtain ⟨d, hd, hk⟩ := htaken
  have hholds : headerHolds pt.symbols header = holds pt.symbols d.rest :=
    headerHolds_of (parseDirective_of_directiveAt hd) hk
  refine ⟨_, step_group hlive hd hk, ?_, ?_⟩
  · cases live <;> cases hv : holds pt.symbols d.rest <;> cases hm : more.selected pt.symbols <;>
      simp [hlive, Arms.selected, hholds, hv, hm]
  · cases live <;> cases hv : holds pt.symbols d.rest <;> cases hm : more.selected pt.symbols <;>
      simp [Awaits, hlive, Arms.selected, hholds, hv, hm, fromNext]

/-- Every later header moves the frame on to the next arm. -/
theorem step_header {pt : Point} {frame : Frame} (below : List Frame) {header : SourceLine}
    {body : Section} {more : Arms} {selected : Option Nat}
    (hawaits : Awaits frame selected pt.symbols (.cons header body more))
    (htaken : TakenFor .elif frame.active pt.state header ∨
      TakenFor .else_ frame.active pt.state header) :
    ∃ frame', step (pt.tracker (frame :: below)) header = (pt.tracker (frame' :: below), false) ∧
      frame'.active = (selected == some 0) ∧ Awaits frame' (fromNext selected) pt.symbols more := by
  obtain ⟨parent, taken, active⟩ := frame
  obtain ⟨rfl, hactive⟩ := hawaits
  have hlive : currentActive (⟨parent, taken, active⟩ :: below) = active := rfl
  rcases htaken with ⟨d, hd, hk⟩ | ⟨d, hd, hk⟩
  · have hholds : headerHolds pt.symbols header = holds pt.symbols d.rest :=
      headerHolds_of (parseDirective_of_directiveAt hd) hk
    generalize hv : holds pt.symbols d.rest = v at hholds
    refine ⟨⟨parent, taken || (parent && v), parent && !taken && v⟩,
      (step_group hlive hd hk).trans ?_, ?_, ?_⟩
    · cases parent <;> cases taken <;> simp [processGroup, hv]
    · cases parent <;> cases taken <;> cases v <;> cases hm : more.selected pt.symbols <;>
        simp [Arms.selected, hholds, hm]
    · cases parent <;> cases taken <;> cases v <;> cases hm : more.selected pt.symbols <;>
        simp [Awaits, Arms.selected, hholds, hm, fromNext]
  · have hholds : headerHolds pt.symbols header = true :=
      headerHolds_of (parseDirective_of_directiveAt hd) hk
    refine ⟨⟨parent, true, parent && !taken⟩, step_group hlive hd hk, ?_, ?_⟩
    · cases parent <;> cases taken <;> simp [Arms.selected, hholds]
    · cases parent <;> cases taken <;> simp [Awaits, Arms.selected, hholds, fromNext]

/-- A live arm is the last one selected, and a dead one changes no symbol. -/
theorem Awaits.after_body {frame : Frame} {selected : Option Nat} {pt : Point} {more : Arms}
    (h : Awaits frame (fromNext selected) pt.symbols more)
    (hactive : frame.active = (selected == some 0)) (body : Section) :
    Awaits frame (fromNext selected) (body.read (selected == some 0) pt).1.symbols more := by
  cases hlive : selected == some 0 with
  | false => rwa [(Section.read_dead pt body).1]
  | true =>
      obtain ⟨hsel, htaken⟩ := h
      have htrue := htaken (hactive.trans hlive)
      refine ⟨?_, htaken⟩
      rw [hsel, htrue]
      simp

/-- The lines of a group after its first header. -/
def Arms.tailLines : Arms → List SourceLine
  | .nil => []
  | .cons _ body more => body.lines ++ more.lines

/-- The frame of a group whose first header has been read. -/
def Opened (frame : Frame) (selected : Option Nat) (symbols : Symbols) : Arms → Prop
  | .nil => True
  | .cons _ _ more =>
      frame.active = (selected == some 0) ∧ Awaits frame (fromNext selected) symbols more

theorem Section.lines_of_isNil {sec : Section} (h : sec.isNil = true) : sec.lines = [] := by
  cases sec with
  | nil => rfl
  | line l rest => cases h
  | group arms close rest => cases h

theorem Arms.lines_of_isNil {arms : Arms} (h : arms.isNil = true) : arms.lines = [] := by
  cases arms with
  | nil => rfl
  | cons header body more => cases h

mutual

/-- **The stack reads the tree**: over a section the tracker keeps the lines the
recursive reading keeps, and ends with the stack it began with, unless the section
runs to the end of the file. -/
theorem Section.run : ∀ (sec : Section) (stack : List Frame) (after : List SourceLine)
    {atEnd live : Bool} {pt : Point}, sec.shaped atEnd = true → sec.recognised live pt →
    currentActive stack = live → (atEnd = true → after = []) →
    ∃ stack', keptLines (pt.tracker stack) (sec.lines ++ after) =
        (sec.read live pt).2 ++ keptLines ((sec.read live pt).1.tracker stack') after ∧
      (atEnd = false → stack' = stack)
  | .nil, stack, _, _, _, _, _, _, _, _ => ⟨stack, rfl, fun _ => rfl⟩
  | .line l rest, stack, after, atEnd, live, pt, hshape, hrec, hlive, hafter => by
      obtain ⟨stack', hrun, hstack⟩ := Section.run rest stack after hshape hrec.2 hlive hafter
      refine ⟨stack', ?_, hstack⟩
      show keptLines (pt.tracker stack) (l :: (rest.lines ++ after)) = _
      rw [keptLines_cons, step_line hlive hrec.1, hrun]
      rfl
  | .group .nil _ _, _, _, _, _, _, _, hrec, _, _ => absurd hrec.1 (by simp [Arms.isNil])
  | .group (.cons header body more) close rest, stack, after, atEnd, live, pt, hshape, hrec, hlive,
      hafter => by
      obtain ⟨-, harms, hclose, hrest⟩ := hrec
      simp only [Section.shaped, Bool.and_eq_true, Bool.or_eq_true] at hshape
      obtain ⟨⟨hshapeArms, hend⟩, hshapeRest⟩ := hshape
      obtain ⟨frame, hstep, hactive, hawaits⟩ := step_if body more hlive harms.1
      -- nothing follows a group that is never closed
      have hnothing : close.isNone = true → close.toList ++ (rest.lines ++ after) = [] := by
        intro hnone
        rw [Option.isNone_iff_eq_none] at hnone
        subst hnone
        obtain ⟨hatEnd, hnil⟩ := hend.resolve_left (by simp)
        rw [Section.lines_of_isNil hnil, hafter hatEnd]
        rfl
      obtain ⟨stack₁, hrun, hframe⟩ := Arms.run (.cons header body more) stack _
        hshapeArms harms ⟨hactive, hawaits⟩ hnothing
      have hlines : (Section.group (.cons header body more) close rest).lines ++ after =
          header :: ((Arms.cons header body more).tailLines ++
            (close.toList ++ (rest.lines ++ after))) := by
        simp [Section.lines, Arms.lines, Arms.tailLines]
      rw [hlines, keptLines_cons, hstep, hrun]
      cases hc : close with
      | none =>
          have hnil := hnothing (by rw [hc]; rfl)
          rw [hc] at hnil hend
          obtain ⟨hatEnd, hrestNil⟩ := hend.resolve_left (by simp)
          obtain ⟨hrestLines, hafterNil⟩ := List.append_eq_nil_iff.mp hnil
          cases rest with
          | nil =>
              refine ⟨stack₁, ?_, fun hfalse => absurd hatEnd (by simp [hfalse])⟩
              rw [hafter hatEnd]
              simp [Section.lines, Section.read, Arms.read]
          | line l rest => cases hrestNil
          | group arms close rest => cases hrestNil
      | some l =>
          rw [hc] at hframe
          obtain ⟨frame', rfl, hactive'⟩ := hframe rfl
          obtain ⟨d, hd, hk⟩ := hclose l hc
          have hlive' : currentActive (frame' :: stack) = (Arms.cons header body more).endsLive live
              (if live then (Arms.cons header body more).selected pt.symbols else none) := hactive'
          obtain ⟨stack₂, hrun₂, hstack₂⟩ := Section.run rest stack after hshapeRest hrest hlive hafter
          refine ⟨stack₂, ?_, hstack₂⟩
          show _ :: (_ ++ keptLines _ (l :: (rest.lines ++ after))) = _
          rw [keptLines_cons, step_group hlive' hd hk]
          show _ :: (_ ++ false :: keptLines (Point.tracker _ stack) (rest.lines ++ after)) = _
          rw [hrun₂]
          simp [Section.read, Arms.read]

/-- The same for the arms of a group, its first header read and its frame on top. -/
theorem Arms.run : ∀ (arms : Arms) (below : List Frame) (after : List SourceLine)
    {openEnd first live : Bool} {selected : Option Nat} {pt : Point} {frame : Frame},
    arms.shaped openEnd = true → arms.recognised first live selected pt → Opened frame selected pt.symbols arms →
    (openEnd = true → after = []) →
    ∃ stack', keptLines (pt.tracker (frame :: below)) (arms.tailLines ++ after) =
        (arms.read selected pt).2.tail ++
          keptLines ((arms.read selected pt).1.tracker stack') after ∧
      (openEnd = false → ∃ frame', stack' = frame' :: below ∧
        frame'.active = arms.endsLive frame.active selected)
  | .nil, below, _, _, _, _, _, _, frame, _, _, _, _ =>
      ⟨frame :: below, rfl, fun _ => ⟨frame, rfl, rfl⟩⟩
  | .cons header body more, below, after, openEnd, _, _, selected, pt, frame, hshape, hrec, hopened,
      hafter => by
      obtain ⟨-, hbody, hmore⟩ := hrec
      obtain ⟨hactive, hawaits⟩ := hopened
      simp only [Arms.shaped, Bool.and_eq_true] at hshape
      obtain ⟨hshapeBody, hshapeMore⟩ := hshape
      have hnothing : (openEnd && more.isNil) = true → more.lines ++ after = [] := by
        intro hboth
        obtain ⟨hopen, hnil⟩ := Bool.and_eq_true_iff.mp hboth
        rw [Arms.lines_of_isNil hnil, hafter hopen]
        rfl
      obtain ⟨stack₁, hrun, hstack⟩ :=
        Section.run body (frame :: below) _ hshapeBody hbody hactive hnothing
      have hlines : (Arms.cons header body more).tailLines ++ after =
          body.lines ++ (more.lines ++ after) := List.append_assoc ..
      rw [hlines, hrun]
      cases more with
      | nil =>
          refine ⟨stack₁, by simp [Arms.read, Arms.lines], fun hfalse => ?_⟩
          exact ⟨frame, hstack (by simp [hfalse]), hactive⟩
      | cons header' body' more' =>
          obtain rfl := hstack (by simp [Arms.isNil])
          have hheader := hmore.1
          rw [if_neg Bool.false_ne_true] at hheader
          obtain ⟨frame', hstep, hactive', hawaits'⟩ :=
            step_header below (hawaits.after_body hactive body) (by rw [hactive]; exact hheader)
          obtain ⟨stack₂, hrun₂, hframe₂⟩ := Arms.run (.cons header' body' more') below after
            hshapeMore hmore ⟨hactive', hawaits'⟩ hafter
          refine ⟨stack₂, ?_, hframe₂⟩
          have hmoreLines : (Arms.cons header' body' more').lines ++ after =
              header' :: ((Arms.cons header' body' more').tailLines ++ after) := by
            simp [Arms.lines, Arms.tailLines]
          rw [hmoreLines, keptLines_cons, hstep, hrun₂]
          simp [Arms.read]

end

/-- **Conditional compilation selects the right lines.** When the directive lines of a
text form a tree, the pass writes out exactly the lines the recursive reading of the
tree keeps, blanks every other one, and of every group keeps lines in at most one
arm. -/
theorem stripInactive_selects {source : Bytes} {predefined : List Bytes} {tree : Section}
    (hlines : tree.lines = lineSpans source) (hshape : tree.shaped true = true)
    (hdirectives : tree.recognised true ⟨predefined, .code⟩) :
    stripInactiveWith source predefined =
        (List.zipWith renderLine (lineSpans source)
          (tree.read true ⟨predefined, .code⟩).2).flatten ∧
      tree.oneArm true ⟨predefined, .code⟩ := by
  refine ⟨?_, Section.oneArm_of true _ tree⟩
  obtain ⟨stack', hrun, -⟩ :=
    Section.run tree [] [] hshape hdirectives rfl fun _ => rfl
  have hkept : keptLines ⟨predefined, [], .code⟩ (lineSpans source) =
      (tree.read true ⟨predefined, .code⟩).2 := by
    rw [← hlines]
    simpa [Point.tracker, keptLines] using hrun
  rw [stripInactiveWith, hkept]

/-! ## One tree -/

def sampleSource : Bytes := bytesOf "#if A\nx\n#else\ny\n#endif\n"

/-- The group of `sampleSource`: an arm under `#if A` and one under `#else`. -/
def sampleArms : Arms :=
  .cons ⟨bytesOf "#if A", [0x0A], true⟩ (.line ⟨bytesOf "x", [0x0A], false⟩ .nil)
    (.cons ⟨bytesOf "#else", [0x0A], false⟩ (.line ⟨bytesOf "y", [0x0A], false⟩ .nil) .nil)

def sampleTree : Section := .group sampleArms (some ⟨bytesOf "#endif", [0x0A], false⟩) .nil

theorem tokenize_sample : tokenize (bytesOf " A") = some [.ident (bytesOf "A")] := by
  have hblank : nextTok [32, 65] = some (none, [65]) := by decide
  have hident : nextTok [65] = some (some (.ident [65]), []) := by decide
  show tokenize [32, 65] = some [.ident [65]]
  rw [tokenize]
  split
  · rename_i h
    rw [hblank] at h
    cases h
  · rename_i tok rest h
    rw [hblank] at h
    cases h
    rw [tokenize]
    split
    · rename_i h
      rw [hident] at h
      cases h
    · rename_i h
      rw [hident] at h
      cases h
      rw [tokenize]
      rfl

/-- `A` is not defined, so the group of `sampleSource` selects its `#else`. -/
theorem selected_sample : sampleArms.selected [] = some 1 := by
  have hif : headerHolds [] ⟨bytesOf "#if A", [0x0A], true⟩ = holds [] (bytesOf " A") := rfl
  have helse : headerHolds [] ⟨bytesOf "#else", [0x0A], false⟩ = true := rfl
  have hstrip : stripComment (bytesOf " A") = bytesOf " A" := by decide
  have hfalse : holds [] (bytesOf " A") = false := by
    unfold holds eval
    rw [hstrip, tokenize_sample]
    simp [parseOr, parseAnd, parseEq, parseUnary, parsePrimary, orChain, andChain, eqChain]
  simp [sampleArms, Arms.selected, hif, hfalse, helse]

theorem recognised_sample : sampleTree.recognised true ⟨[], .code⟩ := by
  simp only [sampleTree, Section.recognised, selected_sample, if_true]
  refine ⟨rfl, ⟨⟨_, rfl, by decide⟩, ⟨?_, trivial⟩, .inr ⟨_, rfl, by decide⟩, ⟨?_, trivial⟩,
    trivial⟩, ?_, trivial⟩
  · rintro k ⟨d, hd, -⟩
    cases hd
  · rintro k ⟨d, hd, -⟩
    cases hd
  · rintro l ⟨⟩
    exact ⟨_, rfl, by decide⟩

theorem stripInactive_selects_sample :
    stripInactiveWith sampleSource [] =
        (List.zipWith renderLine (lineSpans sampleSource)
          (sampleTree.read true ⟨[], .code⟩).2).flatten ∧
      sampleTree.oneArm true ⟨[], .code⟩ :=
  stripInactive_selects (by decide +kernel) rfl recognised_sample

end Devscout.Preproc
