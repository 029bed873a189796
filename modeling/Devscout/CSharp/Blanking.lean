/-
# Devscout.CSharp.Blanking -- what the pre-pass leaves behind

Blanking a line keeps its terminator and its length, so the output splits into the lines
of the source, each as it was or all spaces. A blank line is no directive and leaves code
in code; and code is what the tracker is in wherever a line is blanked. Read again, the
output therefore meets no conditional directive and every surviving line in the state it
was first read in, so a second pass changes nothing.
-/

import Devscout.CSharp.Preproc
import Mathlib

namespace Devscout.Preproc

open Lib

/-! ## The lines of a text -/

def isTerminatorByte (b : UInt8) : Bool := b == 0x0A || b == 0x0D

/-- No byte of a line's content ends a line. -/
def Plain (bytes : Bytes) : Prop := ∀ b ∈ bytes, isTerminatorByte b = false

/-- The text some lines stand for. -/
def textOf (lines : List SourceLine) : Bytes := (lines.map fun l => l.bytes ++ l.terminator).flatten

theorem textOf_cons (l : SourceLine) (lines : List SourceLine) :
    textOf (l :: lines) = l.bytes ++ (l.terminator ++ textOf lines) := by
  simp [textOf]

/-- A terminator before some text: a `\r` takes a `\n` that follows it along. -/
def EndsLine (terminator after : Bytes) : Prop :=
  terminator = [0x0A] ∨ terminator = [0x0D, 0x0A] ∨ (terminator = [0x0D] ∧ after.head? ≠ some 0x0A)

/-- Lines as they come out of a text: only the last may lack a terminator, and a text that
ends with a terminator has no empty line after it. -/
inductive IsLines : Bool → List SourceLine → Prop
  | last (first : Bool) {bytes : Bytes} (hplain : Plain bytes) : IsLines first [⟨bytes, [], first⟩]
  | ended (first : Bool) {bytes terminator : Bytes} (hplain : Plain bytes)
      (hends : EndsLine terminator []) : IsLines first [⟨bytes, terminator, first⟩]
  | more (first : Bool) {bytes terminator : Bytes} {rest : List SourceLine} (hplain : Plain bytes)
      (hends : EndsLine terminator (textOf rest)) (hne : textOf rest ≠ [])
      (hrest : IsLines false rest) : IsLines first (⟨bytes, terminator, first⟩ :: rest)

/-! ## Splitting is the inverse of joining -/

theorem plain_cons {b : UInt8} {bytes : Bytes} :
    Plain (b :: bytes) ↔ isTerminatorByte b = false ∧ Plain bytes := by
  simp [Plain]

/-- Content is read into the line under way. -/
theorem linesFrom_plain {bytes : Bytes} (h : Plain bytes) (first : Bool) (read after : Bytes) :
    linesFrom first read (bytes ++ after) = linesFrom first (bytes.reverse ++ read) after := by
  induction bytes generalizing read with
  | nil => rfl
  | cons b bytes ih =>
      obtain ⟨hb, hrest⟩ := plain_cons.mp h
      have hne : b ≠ 0x0A ∧ b ≠ 0x0D := by
        unfold isTerminatorByte at hb
        simpa using hb
      have hstep : linesFrom first read (b :: (bytes ++ after)) =
          linesFrom first (b :: read) (bytes ++ after) := by
        rw [linesFrom]
        · simp [hne.1, hne.2]
        · intro rest heq _
          exact absurd heq hne.2
      rw [List.cons_append, hstep, ih hrest, List.reverse_cons, List.append_assoc]
      rfl

example : (lineSpans [byte 'a', 0x0D, 0x0A, byte 'b', 0x0A]).map SourceLine.bytes =
    [[byte 'a'], [byte 'b']] := by decide +kernel

/-- A terminator ends the line under way. -/
theorem linesFrom_ends {terminator after : Bytes} (h : EndsLine terminator after) (first : Bool)
    (read : Bytes) :
    linesFrom first read (terminator ++ after) =
      ⟨read.reverse, terminator, first⟩ :: if after.isEmpty then [] else linesFrom false [] after := by
  rcases h with rfl | rfl | ⟨rfl, hnot⟩
  · rfl
  · rfl
  · show linesFrom first read (0x0D :: after) = _
    rw [linesFrom]
    · rfl
    · intro rest _ heq
      exact hnot (by rw [heq]; rfl)

/-- Lines in that form are what their text splits into. -/
theorem linesFrom_textOf {first : Bool} {lines : List SourceLine} (h : IsLines first lines) :
    linesFrom first [] (textOf lines) = lines := by
  induction h with
  | last first hplain =>
      have happend := linesFrom_plain hplain first [] []
      rw [textOf_cons]
      simp only [textOf, List.map_nil, List.flatten_nil, List.append_nil] at happend ⊢
      rw [happend, linesFrom, List.reverse_reverse]
  | ended first hplain hends =>
      rw [textOf_cons, linesFrom_plain hplain, show textOf [] = [] from rfl, linesFrom_ends hends]
      simp
  | more first hplain hends hne hrest ih =>
      rw [textOf_cons, linesFrom_plain hplain, linesFrom_ends hends, ih]
      simp [hne]

theorem textOf_linesFrom (first : Bool) (read source : Bytes) :
    textOf (linesFrom first read source) = read.reverse ++ source := by
  fun_induction linesFrom first read source with
  | case1 first read => simp [textOf]
  | case2 first read rest ih =>
      rw [textOf_cons]
      split
      · rename_i hempty
        rw [List.isEmpty_iff.mp hempty]
        rfl
      · rw [ih]
        rfl
  | case3 first read b rest _ hb ih =>
      rw [textOf_cons]
      split
      · rename_i hempty
        rw [List.isEmpty_iff.mp hempty]
        rfl
      · rw [ih]
        rfl
  | case4 first read b rest _ hb ih =>
      rw [ih, List.reverse_cons, List.append_assoc]
      rfl

theorem isLines_linesFrom (first : Bool) (read source : Bytes) (hread : Plain read) :
    IsLines first (linesFrom first read source) := by
  have hrev : ∀ {read : Bytes}, Plain read → Plain read.reverse := fun h b hb =>
    h b (List.mem_reverse.mp hb)
  fun_induction linesFrom first read source with
  | case1 first read => exact .last first (hrev hread)
  | case2 first read rest ih =>
      split
      · exact .ended first (hrev hread) (Or.inr (Or.inl rfl))
      · rename_i hempty
        have htext : textOf (linesFrom false [] rest) = rest := textOf_linesFrom false [] rest
        refine .more first (hrev hread) (Or.inr (Or.inl rfl)) ?_ (ih fun b hb => by cases hb)
        rw [htext]
        simpa using hempty
  | case3 first read b rest hnot hb ih =>
      have hends : EndsLine [b] rest := by
        rcases Bool.or_eq_true _ _ |>.mp hb with h | h
        · exact Or.inl (by rw [eq_of_beq h])
        · refine Or.inr (Or.inr ⟨by rw [eq_of_beq h], ?_⟩)
          intro hhead
          cases rest with
          | nil => cases hhead
          | cons c rest =>
              rw [List.head?_cons, Option.some.injEq] at hhead
              exact hnot rest (eq_of_beq h) (by rw [hhead])
      split
      · rename_i hempty
        rw [List.isEmpty_iff.mp hempty] at hends
        exact .ended first (hrev hread) hends
      · rename_i hempty
        have htext : textOf (linesFrom false [] rest) = rest := textOf_linesFrom false [] rest
        refine .more first (hrev hread) (by rwa [htext]) ?_ (ih fun b hb => by cases hb)
        rw [htext]
        simpa using hempty
  | case4 first read b rest hnot hb ih =>
      apply ih
      rw [plain_cons]
      exact ⟨by simpa [isTerminatorByte] using hb, hread⟩

theorem isLines_lineSpans (source : Bytes) : IsLines true (lineSpans source) :=
  isLines_linesFrom true [] source fun b hb => by cases hb

theorem textOf_lineSpans (source : Bytes) : textOf (lineSpans source) = source :=
  textOf_linesFrom true [] source

/-! ## Blanked lines -/

/-- A line as the pass writes it. -/
def writtenLine (line : SourceLine) (kept : Bool) : SourceLine :=
  { line with bytes := if kept then line.bytes else line.bytes.map fun _ => byte ' ' }

def written (lines : List SourceLine) (kept : List Bool) : List SourceLine :=
  List.zipWith writtenLine lines kept

theorem length_writtenLine (line : SourceLine) (kept : Bool) :
    (writtenLine line kept).bytes.length = line.bytes.length := by
  unfold writtenLine
  cases kept <;> simp

theorem plain_writtenLine {line : SourceLine} (h : Plain line.bytes) (kept : Bool) :
    Plain (writtenLine line kept).bytes := by
  cases kept with
  | true => exact h
  | false =>
      intro b hb
      obtain ⟨c, -, rfl⟩ := List.mem_map.mp hb
      decide

theorem textOf_written (lines : List SourceLine) (kept : List Bool) :
    textOf (written lines kept) = (List.zipWith renderLine lines kept).flatten := by
  unfold textOf written
  rw [List.map_zipWith]
  rfl

theorem length_keptLines (t : Tracker) (lines : List SourceLine) :
    (keptLines t lines).length = lines.length := by
  induction lines generalizing t with
  | nil => rfl
  | cons line rest ih => rw [keptLines, List.length_cons, List.length_cons, ih]

theorem written_cons (line : SourceLine) (rest : List SourceLine) (k : Bool) (kept : List Bool) :
    written (line :: rest) (k :: kept) = writtenLine line k :: written rest kept := rfl

theorem length_textOf_written {lines : List SourceLine} {kept : List Bool}
    (hlen : kept.length = lines.length) : (textOf (written lines kept)).length = (textOf lines).length := by
  induction lines generalizing kept with
  | nil =>
      rw [List.length_eq_zero_iff.mp hlen]
      rfl
  | cons line rest ih =>
      obtain ⟨k, kept, rfl⟩ := List.exists_cons_of_length_eq_add_one hlen
      have hrest := ih (Nat.succ.inj hlen)
      rw [written_cons, textOf_cons, textOf_cons, List.length_append, List.length_append,
        List.length_append, List.length_append, length_writtenLine, hrest]
      rfl

/-- Blanking never moves a `\n` to the front of a text or away from it. -/
theorem head_textOf_written {first : Bool} {lines : List SourceLine} (h : IsLines first lines)
    {kept : List Bool} (hlen : kept.length = lines.length) :
    (textOf (written lines kept)).head? = some 0x0A ↔ (textOf lines).head? = some 0x0A := by
  -- content never starts with one, and a terminator stays
  have hcons : ∀ (line : SourceLine) (rest : List SourceLine) (k : Bool) (kept : List Bool),
      Plain line.bytes → (line.bytes = [] → line.terminator = [] → rest = []) →
      ((textOf (written (line :: rest) (k :: kept))).head? = some 0x0A ↔
        (textOf (line :: rest)).head? = some 0x0A) := by
    intro line rest k kept hplain hlast
    have hcontent : ∀ (bytes after : Bytes), Plain bytes → bytes ≠ [] →
        (bytes ++ after).head? ≠ some 0x0A := by
      intro bytes after hplain hne hhead
      obtain ⟨b, bs, rfl⟩ := List.exists_cons_of_ne_nil hne
      rw [List.cons_append, List.head?_cons, Option.some.injEq] at hhead
      have hb := hplain b List.mem_cons_self
      rw [hhead] at hb
      cases hb
    rw [written_cons, textOf_cons, textOf_cons]
    by_cases hempty : line.bytes = []
    · have hwritten : (writtenLine line k).bytes = [] :=
        List.length_eq_zero_iff.mp ((length_writtenLine line k).trans (by rw [hempty]; rfl))
      have hterm : (writtenLine line k).terminator = line.terminator := rfl
      rw [hwritten, hempty, hterm, List.nil_append, List.nil_append]
      cases hterminator : line.terminator with
      | nil =>
          rw [hlast hempty hterminator]
          rfl
      | cons b bs => rfl
    · have hwritten : (writtenLine line k).bytes ≠ [] := by
        intro hnil
        have hlength := length_writtenLine line k
        rw [hnil] at hlength
        exact hempty (List.length_eq_zero_iff.mp hlength.symm)
      exact iff_of_false (hcontent _ _ (plain_writtenLine hplain k) hwritten)
        (hcontent _ _ hplain hempty)
  cases h with
  | last _ hplain =>
      obtain ⟨k, kept, rfl⟩ := List.exists_cons_of_length_eq_add_one hlen
      exact hcons _ _ k kept hplain fun _ _ => rfl
  | ended _ hplain hends =>
      obtain ⟨k, kept, rfl⟩ := List.exists_cons_of_length_eq_add_one hlen
      exact hcons _ _ k kept hplain fun _ _ => rfl
  | more _ hplain hends hne hrest =>
      obtain ⟨k, kept, rfl⟩ := List.exists_cons_of_length_eq_add_one hlen
      refine hcons _ _ k kept hplain fun _ hnil => ?_
      dsimp only at hnil
      rcases hends with h | h | ⟨h, _⟩ <;> rw [hnil] at h <;> cases h

theorem endsLine_congr {terminator after after' : Bytes} (h : EndsLine terminator after)
    (hhead : after'.head? = some 0x0A ↔ after.head? = some 0x0A) : EndsLine terminator after' := by
  rcases h with h | h | ⟨h, hnot⟩
  · exact Or.inl h
  · exact Or.inr (Or.inl h)
  · exact Or.inr (Or.inr ⟨h, fun h' => hnot (hhead.mp h')⟩)

/-- What is written for a text's lines is again a text's lines. -/
theorem IsLines.written {first : Bool} {lines : List SourceLine} (h : IsLines first lines)
    {kept : List Bool} (hlen : kept.length = lines.length) : IsLines first (written lines kept) := by
  induction h generalizing kept with
  | last first hplain =>
      obtain ⟨k, kept, rfl⟩ := List.exists_cons_of_length_eq_add_one hlen
      exact .last first (plain_writtenLine hplain k)
  | ended first hplain hends =>
      obtain ⟨k, kept, rfl⟩ := List.exists_cons_of_length_eq_add_one hlen
      exact .ended first (plain_writtenLine hplain k) hends
  | more first hplain hends hne hrest ih =>
      obtain ⟨k, kept, rfl⟩ := List.exists_cons_of_length_eq_add_one hlen
      have hlen' := Nat.succ.inj hlen
      refine .more first (plain_writtenLine hplain k)
        (endsLine_congr hends (head_textOf_written hrest hlen')) ?_ (ih hlen')
      intro hnil
      have hlength := length_textOf_written hlen'
      have hzero : (textOf (Preproc.written _ kept)).length = 0 := congrArg List.length hnil
      exact hne (List.length_eq_zero_iff.mp (hlength.symm.trans hzero))

/-- The output splits into the lines of the source, each as it was or all spaces. -/
theorem lineSpans_stripInactiveWith (source : Bytes) (predefined : List Bytes) :
    lineSpans (stripInactiveWith source predefined) =
      written (lineSpans source) (keptLines ⟨predefined, [], .code⟩ (lineSpans source)) := by
  unfold stripInactiveWith
  dsimp only
  rw [← textOf_written]
  exact linesFrom_textOf ((isLines_lineSpans source).written (length_keptLines _ _))

/-! ## Reading the output again -/

/-- Wherever the region is inactive, the tracker is in code: only code begins a directive,
and inactive lines are not read. -/
def CodeWhenInactive (t : Tracker) : Prop := currentActive t.stack = false → t.state = .code

theorem directiveAt_active {state : LexState} {line : SourceLine} {d : DirectiveLine}
    (h : directiveAt true state line = some d) : state = .code := by
  unfold directiveAt at h
  split at h
  · cases h
  · rename_i hcode
    simpa using hcode

theorem codeWhenInactive_step {t : Tracker} (h : CodeWhenInactive t) (line : SourceLine) :
    CodeWhenInactive (step t line).1 := by
  unfold step
  dsimp only
  cases hactive : currentActive t.stack with
  | false =>
      have hcode := h hactive
      split
      · split
        · exact fun _ => hcode
        · exact fun _ => hcode
        · exact fun _ => hcode
      · exact fun _ => hcode
  | true =>
      split
      · rename_i hd
        have hcode := directiveAt_active hd
        split
        · exact fun _ => hcode
        · exact fun _ => hcode
        · exact fun _ => hcode
      · intro hinactive
        rw [if_pos rfl] at hinactive
        exact absurd (hactive.symm.trans hinactive) (by decide)

/-- A line of spaces is no directive, the file's first line included. -/
theorem parseDirective_blank (n : Nat) (first : Bool) :
    parseDirective (List.replicate n (byte ' ')) first = none := by
  have hbom : byteOrderMark.isPrefixOf (List.replicate n (byte ' ')) = false := by
    cases n with
    | zero => rfl
    | succ n => rfl
  have hdrop : (List.replicate n (byte ' ')).dropWhile isBlank = [] := by
    rw [List.dropWhile_eq_nil_iff]
    intro b hb
    rw [List.eq_of_mem_replicate hb]
    rfl
  unfold parseDirective
  rw [hbom, Bool.and_false]
  simp only [Bool.false_eq_true, if_false, hdrop]

/-- A line of spaces leaves code in code. -/
theorem scanTurns_blank (n : Nat) (before : Bytes) (k : Nat) :
    scanTurns n .code before (List.replicate k (byte ' ')) = .code := by
  induction n generalizing before k with
  | zero => rfl
  | succ n ih =>
      cases k with
      | zero => rfl
      | succ k =>
          have hturn : scanTurn .code before (List.replicate (k + 1) (byte ' ')) = (.code, 1) := rfl
          rw [scanTurns, hturn]
          exact ih _ k

theorem writtenLine_blanked (line : SourceLine) :
    (writtenLine line false).bytes = List.replicate line.bytes.length (byte ' ') :=
  List.map_const' ..

/-- A line is blanked from code, and code is left after it. -/
theorem state_of_blanked {t : Tracker} (hcode : CodeWhenInactive t) {line : SourceLine}
    (h : (step t line).2 = false) : t.state = .code ∧ (step t line).1.state = .code := by
  unfold step at h ⊢
  dsimp only at h ⊢
  cases hactive : currentActive t.stack with
  | false =>
      have hstate := hcode hactive
      rw [hactive] at h
      refine ⟨hstate, ?_⟩
      split
      · split <;> exact hstate
      · exact hstate
  | true =>
      rw [hactive] at h
      split at h
      · rename_i hd
        have hstate := directiveAt_active hd
        refine ⟨hstate, ?_⟩
        split <;> exact hstate
      · cases h

/-- A kept line is read in an active region, and moves the state alone. -/
theorem step_of_kept {t u : Tracker} {line : SourceLine} (h : (step t line).2 = true)
    (hstack : u.stack = []) (hstate : u.state = t.state) :
    step u line = ({ u with state := (step t line).1.state }, true) := by
  have hactive' : currentActive u.stack = true := by rw [hstack]; rfl
  have hactive : currentActive t.stack = true := by
    unfold step at h
    dsimp only at h
    cases hactive : currentActive t.stack with
    | true => rfl
    | false =>
        rw [hactive] at h
        split at h
        · split at h <;> cases h
        · cases h
  unfold step at h ⊢
  dsimp only at h ⊢
  rw [hactive] at h ⊢
  rw [hactive', hstate]
  cases hd : directiveAt true t.state line with
  | none => rfl
  | some d =>
      rw [hd] at h
      dsimp only at h ⊢
      cases hk : keywordOf d.keyword with
      | other => rw [← hstate]
      | group k => rw [hk] at h; cases h
      | symbol k => rw [hk] at h; cases h

/-- A blank line read from code in an active region is kept, and code goes on. -/
theorem step_blank {u : Tracker} (hstack : u.stack = []) (hstate : u.state = .code)
    (line : SourceLine) : step u (writtenLine line false) = (u, true) := by
  have hactive : currentActive u.stack = true := by rw [hstack]; rfl
  have hnone : directiveAt true u.state (writtenLine line false) = none := by
    unfold directiveAt
    rw [hstate, writtenLine_blanked]
    exact parseDirective_blank _ _
  have hscan : scanLine u.state (writtenLine line false).bytes = .code := by
    rw [hstate, writtenLine_blanked]
    exact scanTurns_blank _ [] _
  unfold step
  dsimp only
  rw [hactive, hnone]
  dsimp only
  rw [if_pos rfl, hscan, ← hstate]

/-- A second pass over what the first one wrote keeps every line: no region is ever
inactive, and each line is read from the state it was first read from. -/
theorem keptLines_written {t u : Tracker} (hcode : CodeWhenInactive t) (hstack : u.stack = [])
    (hstate : u.state = t.state) (lines : List SourceLine) :
    keptLines u (written lines (keptLines t lines)) = List.replicate lines.length true := by
  induction lines generalizing t u with
  | nil => rfl
  | cons line rest ih =>
      have hstep : ∃ u', step u (writtenLine line (step t line).2) = (u', true) ∧ u'.stack = [] ∧
          u'.state = (step t line).1.state := by
        cases hkept : (step t line).2 with
        | false =>
            obtain ⟨hbefore, hafter⟩ := state_of_blanked hcode hkept
            have hucode := hstate.trans hbefore
            exact ⟨u, step_blank hstack hucode line, hstack, hucode.trans hafter.symm⟩
        | true => exact ⟨_, step_of_kept hkept hstack hstate, hstack, rfl⟩
      obtain ⟨u', heq, hstack', hstate'⟩ := hstep
      rw [keptLines, written_cons, keptLines, List.length_cons, List.replicate_succ, heq]
      exact congrArg (true :: ·) (ih (codeWhenInactive_step hcode line) hstack' hstate')

theorem written_replicate_true (lines : List SourceLine) :
    written lines (List.replicate lines.length true) = lines := by
  induction lines with
  | nil => rfl
  | cons line rest ih =>
      rw [List.length_cons, List.replicate_succ, written_cons, ih]
      rfl

/-- **The pass is idempotent**, whatever symbols the second run is given. -/
theorem stripInactiveWith_idempotent (source : Bytes) (predefined again : List Bytes) :
    stripInactiveWith (stripInactiveWith source predefined) again =
      stripInactiveWith source predefined := by
  have hfirst := lineSpans_stripInactiveWith source predefined
  have hkept : keptLines ⟨again, [], .code⟩ (lineSpans (stripInactiveWith source predefined)) =
      List.replicate (lineSpans source).length true := by
    rw [hfirst]
    exact keptLines_written (t := ⟨predefined, [], .code⟩) (u := ⟨again, [], .code⟩) (fun _ => rfl)
      rfl rfl (lineSpans source)
  have hlength : (lineSpans (stripInactiveWith source predefined)).length =
      (lineSpans source).length := by
    rw [hfirst, written, List.length_zipWith, length_keptLines, Nat.min_self]
  calc
    stripInactiveWith (stripInactiveWith source predefined) again =
        textOf (lineSpans (stripInactiveWith (stripInactiveWith source predefined) again)) :=
      (textOf_lineSpans _).symm
    _ = textOf (lineSpans (stripInactiveWith source predefined)) := by
      rw [lineSpans_stripInactiveWith, hkept, ← hlength, written_replicate_true]
    _ = stripInactiveWith source predefined := textOf_lineSpans _

end Devscout.Preproc
