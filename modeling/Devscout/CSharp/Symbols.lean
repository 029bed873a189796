/-
# Devscout.CSharp.Symbols -- which symbol a `#define` sets, and which one a condition reads

Two scanners read symbols. A condition's tokenizer takes every byte outside ASCII for
part of an identifier; what follows `#define` or `#undef` is read up to the first byte
that is no ASCII letter, digit or underscore. They agree on a symbol written in ASCII.
Of a longer identifier the second one reads the ASCII part it begins with, if any, so a
line about it sets or clears another symbol or none.

What a line does to one symbol is told here by what the tokenizer would read on it, and
followed over any later lines.
-/

import Devscout.CSharp.Preproc
import Mathlib

namespace Devscout.Preproc

open Lib Text

/-! ## Identifiers -/

/-- What the tokenizer reads as one identifier token. -/
def IsIdent (w : Bytes) : Prop :=
  ∃ b bs, w = b :: bs ∧ isCondIdentStart b = true ∧ (∀ c ∈ bs, isCondIdentContinue c = true) ∧
    isUtf8 w = true ∧ w ≠ bytesOf "true" ∧ w ≠ bytesOf "false"

/-- A text does not carry an identifier in front of it on. -/
def Bounded (p : UInt8 → Bool) (after : Bytes) : Prop := ∀ c ∈ after.head?, p c = false

theorem isCondIdentContinue_of_start {b : UInt8} (h : isCondIdentStart b = true) :
    isCondIdentContinue b = true := by
  simp only [isCondIdentStart, isCondIdentContinue, isAsciiIdentContinue, Bool.or_eq_true] at h ⊢
  rcases h with h | h
  · exact .inl (.inl h)
  · exact .inr h

/-- No byte the tokenizer or the directive lines give a meaning to belongs to an identifier. -/
theorem ne_of_isCondIdentContinue {b c : UInt8} (h : isCondIdentContinue b = true)
    (hc : isCondIdentContinue c = false) : b ≠ c := by
  rintro rfl
  rw [h] at hc
  cases hc

theorem isBlank_of_isCondIdentContinue {b : UInt8} (h : isCondIdentContinue b = true) :
    isBlank b = false := by
  have hspace := ne_of_isCondIdentContinue h (c := byte ' ') (by decide)
  have htab := ne_of_isCondIdentContinue h (c := byte '\t') (by decide)
  simp [isBlank, hspace, htab]

theorem lt_of_isAsciiIdentContinue {b : UInt8} (h : isAsciiIdentContinue b = true) : b < 0x80 := by
  simp only [isAsciiIdentContinue, isAsciiIdentStart, Bool.or_eq_true, Bool.and_eq_true,
    decide_eq_true_eq, beq_iff_eq] at h
  have hletters : byte 'z' < 0x80 ∧ byte 'Z' < 0x80 ∧ byte '_' < 0x80 ∧ byte '9' < 0x80 := by decide
  obtain ⟨hz, hZ, hunderscore, h9⟩ := hletters
  rcases h with ((⟨-, h⟩ | ⟨-, h⟩) | rfl) | ⟨-, h⟩
  · exact UInt8.lt_of_le_of_lt h hz
  · exact UInt8.lt_of_le_of_lt h hZ
  · exact hunderscore
  · exact UInt8.lt_of_le_of_lt h h9

theorem isCondIdentContinue_ascii {b : UInt8} (h : b < 0x80) :
    isCondIdentContinue b = isAsciiIdentContinue b := by
  have hnot : decide ((0x80 : UInt8) ≤ b) = false := by simpa using h
  rw [isCondIdentContinue, hnot, Bool.or_false]

theorem isCondIdentStart_ascii {b : UInt8} (h : b < 0x80) :
    isCondIdentStart b = isAsciiIdentStart b := by
  have hnot : decide ((0x80 : UInt8) ≤ b) = false := by simpa using h
  rw [isCondIdentStart, hnot, Bool.or_false]

theorem span_eq {p : UInt8 → Bool} {bs after : Bytes} (hbs : ∀ c ∈ bs, p c = true)
    (hafter : Bounded p after) :
    (bs ++ after).takeWhile p = bs ∧ (bs ++ after).dropWhile p = after := by
  induction bs with
  | nil =>
      cases after with
      | nil => exact ⟨rfl, rfl⟩
      | cons c after =>
          have hc : p c = false := hafter c rfl
          simp [hc]
  | cons b bs ih =>
      obtain ⟨htake, hdrop⟩ := ih fun c hc => hbs c (List.mem_cons_of_mem b hc)
      simp [hbs b List.mem_cons_self, htake, hdrop]

theorem bounded_dropWhile (p : UInt8 → Bool) (bytes : Bytes) : Bounded p (bytes.dropWhile p) := by
  intro c hc
  have := List.head?_dropWhile_not p bytes
  rw [hc] at this
  simpa using this

/-! ## The tokenizer -/

/-- The tokenizer reads an identifier as far as it goes. -/
theorem nextTok_ident_iff {bytes w after : Bytes} :
    nextTok bytes = some (some (.ident w), after) ↔
      IsIdent w ∧ bytes = w ++ after ∧ Bounded isCondIdentContinue after := by
  constructor
  · intro h
    cases bytes with
    | nil => cases h
    | cons b bs =>
        simp only [nextTok] at h
        repeat' split at h
        all_goals try cases h
        rename_i hstart hutf8
        -- what is left is the branch that starts an identifier; `true` and `false` are none
        obtain ⟨htok, rfl⟩ : identTok (b :: bs.takeWhile isCondIdentContinue) = .ident w ∧
            bs.dropWhile isCondIdentContinue = after := by
          simpa using h
        simp only [identTok] at htok
        split at htok
        · cases htok
        · split at htok
          · cases htok
          · rename_i htrue hfalse
            cases htok
            refine ⟨⟨b, _, rfl, hstart, fun c hc => List.mem_takeWhile_imp hc, hutf8, htrue,
              hfalse⟩, ?_, bounded_dropWhile _ _⟩
            simp
  · rintro ⟨⟨b, bs, rfl, hstart, hbs, hutf8, htrue, hfalse⟩, rfl, hafter⟩
    have hb := isCondIdentContinue_of_start hstart
    have hne : ∀ c, isCondIdentContinue c = false → b ≠ c := fun c => ne_of_isCondIdentContinue hb
    obtain ⟨htake, hdrop⟩ := span_eq hbs hafter
    have hspecial : b ≠ byte '(' ∧ b ≠ byte ')' ∧ b ≠ byte '!' ∧ b ≠ byte '&' ∧ b ≠ byte '|' ∧
        b ≠ byte '=' :=
      ⟨hne _ (by decide), hne _ (by decide), hne _ (by decide), hne _ (by decide),
        hne _ (by decide), hne _ (by decide)⟩
    simp [nextTok, isBlank_of_isCondIdentContinue hb, hspecial, hstart, htake, hdrop, hutf8,
      identTok, htrue, hfalse]

example : nextTok [byte '!', byte 'A'] = some (some .not, [byte 'A']) := by decide +kernel

theorem tokenize_cons (b : UInt8) (bs : Bytes) :
    tokenize (b :: bs) = (nextTok (b :: bs)).bind fun x =>
      (tokenize x.2).map fun toks => x.1.toList ++ toks := by
  rw [tokenize]
  split
  · rename_i h
    rw [h]
    rfl
  · rename_i h
    rw [h]
    rfl

theorem isIdent_of_mem_tokenize {bytes w : Bytes} {toks : List Tok}
    (h : tokenize bytes = some toks) (hw : .ident w ∈ toks) : IsIdent w := by
  induction hn : bytes.length using Nat.strong_induction_on generalizing bytes toks with
  | h n ih =>
      subst hn
      cases bytes with
      | nil =>
          rw [tokenize] at h
          cases h
          cases hw
      | cons b bs =>
          rw [tokenize_cons, Option.bind_eq_some_iff] at h
          obtain ⟨⟨tok, rest⟩, hnext, h⟩ := h
          obtain ⟨toks', htoks, rfl⟩ := Option.map_eq_some_iff.mp h
          rcases List.mem_append.mp hw with hw | hw
          · cases tok with
            | none => cases hw
            | some t =>
                obtain rfl : Tok.ident w = t := by simpa using hw
                exact (nextTok_ident_iff.mp hnext).1
          · exact ih _ (nextTok_length hnext) htoks hw rfl

theorem tokenize_ident {w : Bytes} (h : IsIdent w) : tokenize w = some [.ident w] := by
  have hnext : nextTok w = some (some (.ident w), []) :=
    nextTok_ident_iff.mpr ⟨h, by simp, fun _ hc => by cases hc⟩
  obtain ⟨b, bs, rfl, -⟩ := h
  rw [tokenize_cons, hnext]
  show (tokenize []).map _ = _
  rw [tokenize]
  rfl

theorem tokenize_space_ident {w : Bytes} (h : IsIdent w) :
    tokenize (byte ' ' :: w) = some [.ident w] := by
  have hnext : nextTok (byte ' ' :: w) = some (none, w) := rfl
  rw [tokenize_cons, hnext]
  show (tokenize w).map _ = _
  rw [tokenize_ident h]
  rfl

/-- A condition of one symbol is that symbol's being defined. -/
theorem eval_symbol {condition w : Bytes} (h : tokenize condition = some [.ident w])
    (symbols : Symbols) : eval condition symbols = some (decide (w ∈ symbols)) := by
  simp [eval, h, parseOr, parseAnd, parseEq, parseUnary, parsePrimary, orChain, andChain, eqChain]

/-! ## Comments -/

theorem stripComment_append {a : Bytes} (h : byte '/' ∉ a) (after : Bytes) :
    stripComment (a ++ after) = a ++ stripComment after := by
  induction a with
  | nil => rfl
  | cons b a ih =>
      have hb : b ≠ byte '/' := fun hb => h (hb ▸ List.mem_cons_self)
      have ha : byte '/' ∉ a := fun ha => h (List.mem_cons_of_mem b ha)
      simp [stripComment, hb, ih ha]

/-- A comment is a suffix that begins with a slash. -/
theorem stripComment_split (bytes : Bytes) :
    ∃ comment, bytes = stripComment bytes ++ comment ∧ ∀ c ∈ comment.head?, c = byte '/' := by
  induction bytes with
  | nil => exact ⟨[], rfl, fun _ hc => by cases hc⟩
  | cons b bs ih =>
      by_cases h : (b == byte '/' && bs.head? == some (byte '/')) = true
      · refine ⟨b :: bs, by rw [stripComment, if_pos h]; rfl, ?_⟩
        intro c hc
        cases hc
        simpa using (Bool.and_eq_true_iff.mp h).1
      · obtain ⟨comment, hsplit, hhead⟩ := ih
        refine ⟨comment, ?_, hhead⟩
        rw [stripComment, if_neg h, List.cons_append, ← hsplit]

theorem head_stripComment {bytes : Bytes} {c : UInt8} (h : c ∈ (stripComment bytes).head?) :
    c ∈ bytes.head? := by
  obtain ⟨comment, hsplit, -⟩ := stripComment_split bytes
  rw [hsplit]
  cases hs : stripComment bytes with
  | nil => rw [hs] at h; cases h
  | cons d ds => rw [hs] at h; exact h

theorem dropWhile_stripComment (bytes : Bytes) :
    (stripComment bytes).dropWhile isBlank = stripComment (bytes.dropWhile isBlank) := by
  induction bytes with
  | nil => rfl
  | cons b bs ih =>
      by_cases hb : isBlank b = true
      · have hslash : b ≠ byte '/' := by
          rintro rfl
          exact absurd hb (by decide)
        simp [stripComment, hslash, hb, ih]
      · have hdrop : (b :: bs).dropWhile isBlank = b :: bs := by simp [hb]
        rw [hdrop]
        by_cases h : (b == byte '/' && bs.head? == some (byte '/')) = true
        · rw [stripComment, if_pos h]
          rfl
        · rw [stripComment, if_neg h]
          simp [hb]

theorem slash_not_mem_ident {w : Bytes} (h : IsIdent w) : byte '/' ∉ w := by
  obtain ⟨b, bs, rfl, hstart, hbs, -⟩ := h
  intro hmem
  rcases List.mem_cons.mp hmem with hb | hmem
  · exact ne_of_isCondIdentContinue (isCondIdentContinue_of_start hstart)
      (c := byte '/') (by decide) hb.symm
  · exact absurd (hbs _ hmem) (by decide)

/-! ## The symbol of a directive -/

/-- The tokenizer's first token of the text is the identifier `w`. -/
def Names (text w : Bytes) : Prop :=
  ∃ after, nextTok ((stripComment text).dropWhile isBlank) = some (some (.ident w), after)

/-- The text is a longer identifier than `w`: it goes on with a byte outside ASCII. -/
def Overruns (text w : Bytes) : Prop :=
  ∃ b after, 0x80 ≤ b ∧ text.dropWhile isBlank = w ++ b :: after

theorem names_iff {text w : Bytes} :
    Names text w ↔ IsIdent w ∧ ∃ after, text.dropWhile isBlank = w ++ after ∧
      Bounded isCondIdentContinue after := by
  rw [Names, dropWhile_stripComment]
  generalize text.dropWhile isBlank = bytes
  constructor
  · rintro ⟨after, h⟩
    obtain ⟨hw, heq, hafter⟩ := nextTok_ident_iff.mp h
    obtain ⟨comment, hsplit, hhead⟩ := stripComment_split bytes
    refine ⟨hw, after ++ comment, by rw [← List.append_assoc, ← heq, ← hsplit], ?_⟩
    intro c hc
    cases after with
    | nil =>
        -- the identifier is followed by the comment, and a slash ends it
        rw [hhead c hc]
        decide
    | cons d ds => exact hafter c hc
  · rintro ⟨hw, after, rfl, hafter⟩
    refine ⟨stripComment after, nextTok_ident_iff.mpr ⟨hw, ?_, ?_⟩⟩
    · exact stripComment_append (slash_not_mem_ident hw) after
    · exact fun c hc => hafter c (head_stripComment hc)

/-- What is read after `#define`: an ASCII identifier as far as it goes in ASCII. -/
theorem parseSymbolIdent_eq_some_iff {text s : Bytes} :
    parseSymbolIdent text = some s ↔ ∃ b bs after, s = b :: bs ∧ isAsciiIdentStart b = true ∧
      (∀ c ∈ bs, isAsciiIdentContinue c = true) ∧ text.dropWhile isBlank = s ++ after ∧
      Bounded isAsciiIdentContinue after := by
  rw [parseSymbolIdent]
  generalize text.dropWhile isBlank = bytes
  constructor
  · intro h
    cases bytes with
    | nil => simp [takeIdent] at h
    | cons b bs =>
        by_cases hb : isAsciiIdentStart b = true
        · obtain rfl : b :: bs.takeWhile isAsciiIdentContinue = s := by
            simpa [takeIdent, hb] using h
          exact ⟨b, _, bs.dropWhile isAsciiIdentContinue, rfl, hb,
            fun c hc => List.mem_takeWhile_imp hc, by simp, bounded_dropWhile _ _⟩
        · simp [takeIdent, hb] at h
  · rintro ⟨b, bs, after, rfl, hb, hbs, rfl, hafter⟩
    obtain ⟨htake, -⟩ := span_eq hbs hafter
    simp [takeIdent, hb, htake]

theorem ascii_of_parseSymbolIdent {text s : Bytes} (h : parseSymbolIdent text = some s) :
    ∀ b ∈ s, b < 0x80 := by
  obtain ⟨b, bs, -, rfl, hb, hbs, -⟩ := parseSymbolIdent_eq_some_iff.mp h
  intro c hc
  rcases List.mem_cons.mp hc with rfl | hc
  · exact lt_of_isAsciiIdentContinue (by simp [isAsciiIdentContinue, hb])
  · exact lt_of_isAsciiIdentContinue (hbs c hc)

/-- The scanners agree on an identifier in ASCII. -/
theorem parseSymbolIdent_of_names {text w : Bytes} (h : Names text w) (hascii : ∀ b ∈ w, b < 0x80) :
    parseSymbolIdent text = some w := by
  obtain ⟨⟨b, bs, rfl, hstart, hbs, -⟩, after, heq, hafter⟩ := names_iff.mp h
  refine parseSymbolIdent_eq_some_iff.mpr ⟨b, bs, after, rfl, ?_, ?_, heq, ?_⟩
  · rwa [← isCondIdentStart_ascii (hascii b List.mem_cons_self)]
  · intro c hc
    rw [← isCondIdentContinue_ascii (hascii c (List.mem_cons_of_mem b hc))]
    exact hbs c hc
  · intro c hc
    have hno := hafter c hc
    simp only [isCondIdentContinue, Bool.or_eq_false_iff] at hno
    exact hno.1

/-- A symbol that is read is the one named, or the ASCII part of a longer one. -/
theorem names_or_overruns {text w : Bytes} (hw : IsIdent w) (h : parseSymbolIdent text = some w) :
    Names text w ∨ Overruns text w := by
  obtain ⟨-, -, after, -, -, -, heq, hafter⟩ := parseSymbolIdent_eq_some_iff.mp h
  cases after with
  | nil => exact .inl (names_iff.mpr ⟨hw, [], heq, fun _ hc => by cases hc⟩)
  | cons c after =>
      by_cases hc : 0x80 ≤ c
      · exact .inr ⟨c, after, hc, heq⟩
      · refine .inl (names_iff.mpr ⟨hw, c :: after, heq, ?_⟩)
        rintro d ⟨⟩
        rw [isCondIdentContinue_ascii (UInt8.not_le.mp hc)]
        exact hafter c rfl

/-! ## Lines -/

/-- The directive that undoes one. -/
def SymbolKeyword.opposite : SymbolKeyword → SymbolKeyword
  | .define => .undef
  | .undef => .define

/-- An active line is the directive `k`, with `text` after its keyword. -/
def SymbolLine (k : SymbolKeyword) (t : Tracker) (line : SourceLine) (text : Bytes) : Prop :=
  currentActive t.stack = true ∧ ∃ d, directiveAt true t.state line = some d ∧
    keywordOf d.keyword = .symbol k ∧ d.rest = text

/-- An active line is an `#if` of the one symbol `w`. -/
def IfLine (t : Tracker) (line : SourceLine) (w : Bytes) : Prop :=
  currentActive t.stack = true ∧ ∃ d, directiveAt true t.state line = some d ∧
    keywordOf d.keyword = .group .if_ ∧ tokenize (stripComment d.rest) = some [.ident w]

/-- The tracker after some lines. -/
def run (t : Tracker) (lines : List SourceLine) : Tracker := lines.foldl (fun t l => (step t l).1) t

/-- No active line of the run is the directive `k` with a text of this kind. -/
def Free (k : SymbolKeyword) (kind : Bytes → Prop) : Tracker → List SourceLine → Prop
  | _, [] => True
  | t, line :: rest => (∀ text, SymbolLine k t line text → ¬kind text) ∧ Free k kind (step t line).1 rest

/-- What a directive does to the symbols once its text is read. -/
def SymbolKeyword.apply (k : SymbolKeyword) (symbols : Symbols) (s : Bytes) : Symbols :=
  match k with
  | .define => symbols.insert s
  | .undef => symbols.remove s

theorem mem_insert {symbols : Symbols} {s w : Bytes} : w ∈ symbols.insert s ↔ w = s ∨ w ∈ symbols := by
  by_cases hs : s ∈ symbols
  · simp only [Symbols.insert, List.contains_eq_mem, hs, decide_true, if_true]
    constructor
    · exact .inr
    · rintro (rfl | h)
      · exact hs
      · exact h
  · simp [Symbols.insert, hs]

theorem mem_remove {symbols : Symbols} {s w : Bytes} : w ∈ symbols.remove s ↔ w ∈ symbols ∧ w ≠ s := by
  simp [Symbols.remove]

theorem mem_apply_self (k : SymbolKeyword) (symbols : Symbols) (w : Bytes) :
    w ∈ k.apply symbols w ↔ k = .define := by
  cases k with
  | define => simp [SymbolKeyword.apply, mem_insert]
  | undef => simp [SymbolKeyword.apply, mem_remove]

theorem mem_apply_of_ne (k : SymbolKeyword) (symbols : Symbols) {s w : Bytes} (h : w ≠ s) :
    w ∈ k.apply symbols s ↔ w ∈ symbols := by
  cases k with
  | define => simp [SymbolKeyword.apply, mem_insert, h]
  | undef => simp [SymbolKeyword.apply, mem_remove, h]

theorem SymbolLine.directive {k : SymbolKeyword} {t : Tracker} {line : SourceLine} {text : Bytes}
    (h : SymbolLine k t line text) :
    ∃ d, directiveAt (currentActive t.stack) t.state line = some d ∧
      keywordOf d.keyword = .symbol k ∧ d.rest = text := by
  obtain ⟨hactive, d, hd, hk, hrest⟩ := h
  exact ⟨d, hactive ▸ hd, hk, hrest⟩

/-- What a line does to the symbols: an active `#define` or `#undef` that is read applies
to what is read of it, and every other line leaves them as they were. -/
theorem symbols_step (t : Tracker) (line : SourceLine) :
    (∃ k text s, SymbolLine k t line text ∧ parseSymbolIdent text = some s ∧
      (step t line).1.symbols = k.apply t.symbols s) ∨
    (∀ k text, SymbolLine k t line text → parseSymbolIdent text = none) ∧
      (step t line).1.symbols = t.symbols := by
  cases hd : directiveAt (currentActive t.stack) t.state line with
  | none =>
      refine .inr ⟨?_, ?_⟩
      · intro k text h
        obtain ⟨d, hd', -⟩ := h.directive
        rw [hd'] at hd
        cases hd
      · simp only [step, hd]
        split <;> rfl
  | some d =>
      cases hk : keywordOf d.keyword with
      | symbol k =>
          have hstep : (step t line).1.symbols = processSymbol k d.rest t.symbols t.stack := by
            simp only [step, hd, hk]
          have hline : ∀ k' text, SymbolLine k' t line text → text = d.rest := by
            intro k' text h
            obtain ⟨d', hd', -, rfl⟩ := h.directive
            rw [hd'] at hd
            cases hd
            rfl
          by_cases hactive : currentActive t.stack = true
          · cases hs : parseSymbolIdent d.rest with
            | none =>
                refine .inr ⟨fun k' text h => by rw [hline k' text h, hs], ?_⟩
                rw [hstep, processSymbol, if_pos hactive, hs]
            | some s =>
                refine .inl ⟨k, d.rest, s, ⟨hactive, d, hactive ▸ hd, hk, rfl⟩, hs, ?_⟩
                rw [hstep, processSymbol, if_pos hactive, hs]
                cases k <;> rfl
          · -- in a group that is not active the directive is passed over
            refine .inr ⟨fun k' text h => absurd h.1 hactive, ?_⟩
            rw [hstep, processSymbol, if_neg hactive]
      | group _ | other =>
          refine .inr ⟨?_, by simp only [step, hd, hk]⟩
          intro k' text h
          obtain ⟨d', hd', hk', -⟩ := h.directive
          rw [hd'] at hd
          cases hd
          rw [hk] at hk'
          cases hk'

theorem SymbolLine.unique {k k' : SymbolKeyword} {t : Tracker} {line : SourceLine}
    {text text' : Bytes} (h : SymbolLine k t line text) (h' : SymbolLine k' t line text') :
    k = k' ∧ text = text' := by
  obtain ⟨-, d, hd, hk, rfl⟩ := h
  obtain ⟨-, d', hd', hk', rfl⟩ := h'
  rw [hd] at hd'
  cases hd'
  rw [hk] at hk'
  cases hk'
  exact ⟨rfl, rfl⟩

theorem symbols_of_line {k : SymbolKeyword} {t : Tracker} {line : SourceLine} {text s : Bytes}
    (h : SymbolLine k t line text) (hs : parseSymbolIdent text = some s) :
    (step t line).1.symbols = k.apply t.symbols s := by
  rcases symbols_step t line with ⟨k', text', s', hline, hs', hsymbols⟩ | ⟨hnone, -⟩
  · obtain ⟨rfl, rfl⟩ := h.unique hline
    rw [hs] at hs'
    cases hs'
    exact hsymbols
  · rw [hnone k text h] at hs
    cases hs

/-! ## Runs -/

section Runs

variable {w : Bytes} {k : SymbolKeyword}

/-- **One line.** It leaves the symbol as `k` left it, unless it is the opposite directive
and names the symbol or a longer one. -/
theorem step_keeps (hw : IsIdent w) {t : Tracker} {line : SourceLine}
    (hnames : ∀ text, SymbolLine k.opposite t line text → ¬Names text w)
    (hoverruns : ∀ text, SymbolLine k.opposite t line text → ¬Overruns text w)
    (h : w ∈ t.symbols ↔ k = .define) : w ∈ (step t line).1.symbols ↔ k = .define := by
  rcases symbols_step t line with ⟨k', text, s, hline, hs, hsymbols⟩ | ⟨-, hsymbols⟩
  · rw [hsymbols]
    by_cases hws : w = s
    · subst hws
      have hk : k' = k := by
        by_contra hne
        -- the opposite directive would name the symbol, or a longer one it is the start of
        obtain rfl : k' = k.opposite := by cases k <;> cases k' <;> simp_all [SymbolKeyword.opposite]
        rcases names_or_overruns hw hs with hnamed | hover
        · exact hnames text hline hnamed
        · exact hoverruns text hline hover
      rw [hk]
      exact mem_apply_self k t.symbols w
    · rw [mem_apply_of_ne k' t.symbols hws]
      exact h
  · rw [hsymbols]
    exact h

theorem run_keeps (hw : IsIdent w) {t : Tracker} {lines : List SourceLine}
    (hnames : Free k.opposite (Names · w) t lines) (hoverruns : Free k.opposite (Overruns · w) t lines)
    (h : w ∈ t.symbols ↔ k = .define) : w ∈ (run t lines).symbols ↔ k = .define := by
  induction lines generalizing t with
  | nil => exact h
  | cons line rest ih =>
      obtain ⟨hnames₁, hnames₂⟩ := hnames
      obtain ⟨hover₁, hover₂⟩ := hoverruns
      exact ih hnames₂ hover₂ (step_keeps hw hnames₁ hover₁ h)

theorem active_of_ifLine {t : Tracker} {line : SourceLine} (h : IfLine t line w) :
    currentActive (step t line).1.stack = decide (w ∈ t.symbols) := by
  obtain ⟨hactive, d, hd, hk, htokens⟩ := h
  have hstep : (step t line).1.stack = processGroup .if_ d.rest t.symbols t.stack := by
    simp only [step, hactive, hd, hk]
  have hframe : currentActive (processGroup .if_ d.rest t.symbols t.stack) =
      (currentActive t.stack && holds t.symbols d.rest) := rfl
  rw [hstep, hframe, hactive, holds, eval_symbol htokens]
  rfl

end Runs

/-- The directive `k` and `#if` read the symbol `w` alike: after an active line that names
it, an `#if w` says what that line did to it until a line names it with the opposite
directive, and no other symbol changes. Left aside are runs with a line that names a
longer identifier, of which only `w` is read. -/
def ReadAlike (k : SymbolKeyword) (w : Bytes) : Prop :=
  ∀ t line text, SymbolLine k t line text → Names text w →
    (∀ between ifLine, Free k.opposite (Names · w) (step t line).1 between →
      Free k.opposite (Overruns · w) (step t line).1 between →
      IfLine (run (step t line).1 between) ifLine w →
      currentActive (step (run (step t line).1 between) ifLine).1.stack = decide (k = .define)) ∧
    ∀ other condition, other ≠ w → tokenize condition = some [.ident other] →
      eval condition (step t line).1.symbols = eval condition t.symbols

theorem readAlike_of_ascii (k : SymbolKeyword) {w : Bytes} (hw : IsIdent w)
    (hascii : ∀ b ∈ w, b < 0x80) : ReadAlike k w := by
  intro t line text hline hnames
  have hsymbols : (step t line).1.symbols = k.apply t.symbols w :=
    symbols_of_line hline (parseSymbolIdent_of_names hnames hascii)
  constructor
  · intro between ifLine hfree hover hif
    have hkept : w ∈ (run (step t line).1 between).symbols ↔ k = .define :=
      run_keeps hw hfree hover (by rw [hsymbols]; exact mem_apply_self k t.symbols w)
    rw [active_of_ifLine hif]
    exact decide_eq_decide.mpr hkept
  · intro other condition hother htokens
    rw [eval_symbol htokens, eval_symbol htokens, hsymbols]
    exact congrArg some (decide_eq_decide.mpr (mem_apply_of_ne k t.symbols hother))

/-- A line of a file's inside, with a directive on it. -/
def directiveLine (keyword : Bytes) (w : Bytes) : SourceLine :=
  ⟨bytesOf "#" ++ keyword ++ byte ' ' :: w, [0x0A], false⟩

/-- A file in whose first lines no group is open yet. -/
def start : Tracker := ⟨[], [], .code⟩

theorem parseDirective_define (w : Bytes) : parseDirective (directiveLine (bytesOf "define") w).bytes
    false = some ⟨bytesOf "define", byte ' ' :: w⟩ := rfl

theorem parseDirective_if (w : Bytes) : parseDirective (directiveLine (bytesOf "if") w).bytes
    false = some ⟨bytesOf "if", byte ' ' :: w⟩ := rfl

theorem symbolLine_define (w : Bytes) :
    SymbolLine .define start (directiveLine (bytesOf "define") w) (byte ' ' :: w) :=
  ⟨rfl, _, parseDirective_define w, rfl, rfl⟩

theorem names_self {w : Bytes} (h : IsIdent w) : Names (byte ' ' :: w) w := by
  refine names_iff.mpr ⟨h, [], ?_, fun _ hc => by cases hc⟩
  obtain ⟨b, bs, rfl, hstart, -⟩ := h
  have hb := isBlank_of_isCondIdentContinue (isCondIdentContinue_of_start hstart)
  simp [hb, show isBlank (byte ' ') = true from rfl]

theorem ifLine_if {w : Bytes} (h : IsIdent w) {t : Tracker} (hactive : currentActive t.stack = true)
    (hstate : t.state = .code) : IfLine t (directiveLine (bytesOf "if") w) w := by
  refine ⟨hactive, ⟨bytesOf "if", byte ' ' :: w⟩, ?_, rfl, ?_⟩
  · rw [hstate]
    exact parseDirective_if w
  · have hslash : byte '/' ∉ byte ' ' :: w := by
      simp only [List.mem_cons, not_or]
      exact ⟨by decide, slash_not_mem_ident h⟩
    have hstrip := stripComment_append hslash []
    rw [List.append_nil] at hstrip
    show tokenize (stripComment (byte ' ' :: w)) = _
    rw [hstrip, stripComment, List.append_nil, tokenize_space_ident h]

/-- At the start of a file an `#if` of a symbol stands after the `#define` of it. -/
theorem ifLine_define_if {w : Bytes} (h : IsIdent w) :
    IfLine (step start (directiveLine (bytesOf "define") w)).1 (directiveLine (bytesOf "if") w) w :=
  ifLine_if h rfl rfl

/-- **One symbol, two scanners.** A `#define` or `#undef` of a symbol is what a following
`#if` reads exactly when the symbol is written in ASCII. -/
theorem readAlike_iff_ascii (w : Bytes) (hw : tokenize w = some [.ident w]) :
    (∀ k, ReadAlike k w) ↔ ∀ b ∈ w, b < 0x80 := by
  have hident : IsIdent w := isIdent_of_mem_tokenize hw List.mem_cons_self
  constructor
  · intro h
    have hline := symbolLine_define w
    have hif := ifLine_define_if hident
    have hactive := (h .define start _ _ hline (names_self hident)).1 [] _ trivial trivial hif
    have hmem : w ∈ (step start (directiveLine (bytesOf "define") w)).1.symbols :=
      of_decide_eq_true ((active_of_ifLine hif).symm.trans hactive)
    -- no symbol was set before the line, so this one was read off it
    rcases symbols_step start (directiveLine (bytesOf "define") w) with
      ⟨k, text, s, hline', hs, hsymbols⟩ | ⟨-, hsymbols⟩
    · obtain ⟨rfl, rfl⟩ := hline.unique hline'
      rw [hsymbols] at hmem
      obtain rfl : w = s := by simpa [SymbolKeyword.apply, mem_insert, start] using hmem
      exact ascii_of_parseSymbolIdent hs
    · rw [hsymbols] at hmem
      cases hmem
  · intro hascii k
    exact readAlike_of_ascii k hident hascii

theorem readAlike_iff_ascii_A :
    (∀ k, ReadAlike k (bytesOf "A")) ↔ ∀ b ∈ bytesOf "A", b < 0x80 :=
  readAlike_iff_ascii (bytesOf "A")
    (tokenize_ident ⟨byte 'A', [], rfl, by decide, by simp, by decide, by decide, by decide⟩)

/-- `Über`, in UTF-8. -/
def uber : Bytes := [0xC3, 0x9C, 0x62, 0x65, 0x72]

/-- After `#define Über` the arm of `#if Über` is not active. -/
theorem define_uber_lost : tokenize uber = some [.ident uber] ∧
    SymbolLine .define start (directiveLine (bytesOf "define") uber) (byte ' ' :: uber) ∧
    Names (byte ' ' :: uber) uber ∧
    IfLine (step start (directiveLine (bytesOf "define") uber)).1
      (directiveLine (bytesOf "if") uber) uber ∧
    currentActive (step (step start (directiveLine (bytesOf "define") uber)).1
      (directiveLine (bytesOf "if") uber)).1.stack = false := by
  have hident : IsIdent uber :=
    ⟨0xC3, _, rfl, by decide, List.all_eq_true.mp (by decide), by decide, by decide, by decide⟩
  have hif := ifLine_define_if hident
  refine ⟨tokenize_ident hident, symbolLine_define uber, names_self hident, hif, ?_⟩
  have hsymbols : (step start (directiveLine (bytesOf "define") uber)).1.symbols = [] := by
    decide +kernel
  rw [active_of_ifLine hif, hsymbols]
  rfl

end Devscout.Preproc
