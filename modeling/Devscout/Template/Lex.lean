/-
# Devscout.Template.Lex -- the tokens of a template expression

The lexer splits an expression into tokens and counts the lines as it goes. Here each token
is kept together with the offset it starts at, so that the line it is told can be compared
with the newlines in front of it. They differ by the newlines behind a backslash in a string:
the lexer steps over an escaped byte whatever it is, and counts the others.
-/

import Devscout.Template.Expr
import Devscout.Template.Scan

namespace Devscout.Template

open Lib

/-! ## The lexer -/

/-- Longest first, so `===` is never lexed as `==` followed by `=`. -/
def PUNCTS : List String :=
  ["===", "!==", "**=", "&&=", "||=", "??=", "?.", "??", "==", "!=", "<=", ">=", "&&", "||", "**",
    "+=", "-=", "*=", "/=", "%=", "+", "-", "*", "/", "%", "<", ">", "!", "=", "?", ":", ".", ",",
    ";", "|", "(", ")", "[", "]", "\x7b", "\x7d"]

def isIdentStart (c : UInt8) : Bool := isAlpha c || c == ascii '_' || c == ascii '$'

def isIdentPart (c : UInt8) : Bool := isIdentStart c || isDigit c

/-- What a number goes on with. -/
def isNumberPart (c : UInt8) : Bool := isAlpha c || isDigit c || c == ascii '.'

def isQuote (c : UInt8) : Bool := c == ascii '\'' || c == ascii '"'

/-- The text of bytes below `0x80`. -/
def asciiText (bytes : Bytes) : String := String.ofList (bytes.map fun b => Char.ofNat b.toNat)

/-- `skip_string`, behind the quote that opens it: the bytes up to behind the closing quote, and the
line there; `none` where the string never closes. -/
def skipString (quote : UInt8) : Bytes → Nat → Option (Nat × Nat)
  | [], _ => none
  | c :: rest, line =>
      if c == ascii '\\' then
        match rest with
        | [] => none
        | _ :: rest => (skipString quote rest line).map fun r => (r.1 + 2, r.2)
      else if c == 0x0A then (skipString quote rest (line + 1)).map fun r => (r.1 + 1, r.2)
      else if c == quote then some (1, line)
      else (skipString quote rest line).map fun r => (r.1 + 1, r.2)

/-- A turn of the loop of `lex`: the token it pushes, the bytes it takes, and the line behind them. -/
structure Turn where
  tok : Option Tok
  taken : Nat
  line : Nat

def turn (c : UInt8) (rest : Bytes) (line : Nat) : Option Turn :=
  let bytes := c :: rest
  if c == 0x0A then some ⟨none, 1, line + 1⟩
  else if isSpace c then some ⟨none, 1, line⟩
  else if isIdentStart c then
    let word := bytes.takeWhile isIdentPart
    some ⟨some (.ident (asciiText word)), word.length, line⟩
  else if isDigit c then some ⟨some .literal, (bytes.takeWhile isNumberPart).length, line⟩
  else if isQuote c then (skipString c rest line).map fun r => ⟨some .literal, r.1 + 1, r.2⟩
  else
    (PUNCTS.find? fun p => (Utf8.encode p.toList).isPrefixOf bytes).map fun p =>
      ⟨some (.punct p), (Utf8.encode p.toList).length, line⟩

/-- A token with the offset it starts at. -/
structure Lexeme where
  tok : Tok
  i : Nat
  line : Nat

def lexFrom : Nat → Bytes → Nat → Nat → Option (List Lexeme)
  | _, [], _, _ => some []
  | 0, _ :: _, _, _ => none
  | turns + 1, c :: rest, i, line => do
      let t ← turn c rest line
      let more ← lexFrom turns ((c :: rest).drop t.taken) (i + t.taken) t.line
      match t.tok with
      | none => some more
      | some tok => some (⟨tok, i, line⟩ :: more)

/-- `lex`: a byte outside the subset, or a string that never closes, refuses the whole text. -/
def lex (text : Str) (firstLine : Nat) : Option (List Lexeme) :=
  lexFrom (Utf8.encode text).length (Utf8.encode text) 0 firstLine

/-! ## What the lines leave out -/

/-- The newlines right behind a backslash of a string; the first argument is the quote of the string
the bytes start in. -/
def escapedNewlines : Option UInt8 → Bytes → Nat
  | _, [] => 0
  | none, c :: rest => escapedNewlines (if isQuote c then some c else none) rest
  | some quote, c :: rest =>
      if c == ascii '\\' then
        match rest with
        | [] => 0
        | d :: rest => (if d = 0x0A then 1 else 0) + escapedNewlines (some quote) rest
      else escapedNewlines (if c == quote then none else some quote) rest

/-! ## One turn -/

section Lines

variable {c quote : UInt8} {rest bytes word more : Bytes} {line : Nat}

theorem newlines_cons (c : UInt8) (rest : Bytes) :
    newlines (c :: rest) = newlines rest + if c = 0x0A then 1 else 0 := by
  unfold newlines
  rw [List.countP_cons]
  by_cases hc : c = 0x0A
  · rw [if_pos hc, if_pos (by rw [hc]; rfl)]
  · rw [if_neg hc, if_neg (by rwa [beq_iff_eq])]

/-- Behind the quote that opens it, a string leaves out the newlines it escapes and no others. -/
theorem skipString_spec {n line' : Nat} (hnl : quote ≠ 0x0A)
    (h : skipString quote rest line = some (n, line')) :
    0 < n ∧ n ≤ rest.length ∧ ∀ more, line' + escapedNewlines (some quote) (rest.take n ++ more) =
      line + newlines (rest.take n) + escapedNewlines none more := by
  induction hlen : rest.length using Nat.strongRecOn generalizing rest n line with
  | _ len ih =>
      rcases rest with _ | ⟨c, rest⟩
      · cases h
      · unfold skipString at h
        by_cases hslash : c = ascii '\\'
        · rw [if_pos (by rw [hslash]; rfl)] at h
          rcases rest with _ | ⟨d, rest⟩
          · cases h
          · obtain ⟨⟨n, line'⟩, hrest, heq⟩ := Option.map_eq_some_iff.mp h
            obtain ⟨rfl, rfl⟩ := Prod.mk.inj heq
            simp only [List.length_cons] at hlen
            obtain ⟨hpos, hle, hcount⟩ := ih rest.length (by omega) hrest rfl
            refine ⟨by omega, by omega, fun more => ?_⟩
            have hmore := hcount more
            have hc : c ≠ 0x0A := by
              rw [hslash]
              decide
            rw [List.take_succ_cons, List.take_succ_cons, newlines_cons, newlines_cons, if_neg hc]
            show line' + escapedNewlines (some quote) (c :: d :: (rest.take n ++ more)) = _
            rw [escapedNewlines, if_pos (by rw [hslash]; rfl)]
            dsimp only
            omega
        · rw [if_neg (by rwa [beq_iff_eq])] at h
          have hstep : ∀ more, escapedNewlines (some quote) (c :: more) =
              escapedNewlines (if c == quote then none else some quote) more := by
            intro more
            rw [escapedNewlines.eq_def]
            dsimp only
            rw [if_neg (by rwa [beq_iff_eq])]
          simp only [List.length_cons] at hlen
          split at h
          · rename_i hline
            rw [beq_iff_eq] at hline
            obtain ⟨⟨n, line'⟩, hrest, heq⟩ := Option.map_eq_some_iff.mp h
            obtain ⟨rfl, rfl⟩ := Prod.mk.inj heq
            obtain ⟨hpos, hle, hcount⟩ := ih rest.length (by omega) hrest rfl
            refine ⟨by omega, by omega, fun more => ?_⟩
            have hmore := hcount more
            dsimp only
            rw [List.take_succ_cons, newlines_cons, if_pos hline, List.cons_append, hstep,
              if_neg (by rw [beq_iff_eq, hline]; exact hnl.symm)]
            omega
          · rename_i hline
            rw [beq_iff_eq] at hline
            split at h
            · rename_i hquote
              obtain ⟨rfl, rfl⟩ := Prod.mk.inj (Option.some.inj h)
              refine ⟨Nat.one_pos, by omega, fun more => ?_⟩
              rw [List.take_succ_cons, List.take_zero, List.singleton_append, hstep, if_pos hquote,
                newlines_cons, if_neg hline]
              rfl
            · rename_i hquote
              obtain ⟨⟨n, line'⟩, hrest, heq⟩ := Option.map_eq_some_iff.mp h
              obtain ⟨rfl, rfl⟩ := Prod.mk.inj heq
              obtain ⟨hpos, hle, hcount⟩ := ih rest.length (by omega) hrest rfl
              refine ⟨by omega, by omega, fun more => ?_⟩
              have hmore := hcount more
              dsimp only
              rw [List.take_succ_cons, newlines_cons, if_neg hline, List.cons_append, hstep, if_neg hquote]
              omega

/-- The quote behind a backslash does not close the string. -/
example : skipString (ascii '"') [ascii '\\', ascii '"', ascii '"'] 1 = some (3, 1) := by decide +kernel

/-- Bytes that open no string and end no line. -/
theorem escapedNewlines_word (h : ∀ b ∈ word, isQuote b = false) :
    escapedNewlines none (word ++ more) = escapedNewlines none more := by
  induction word with
  | nil => rfl
  | cons b word ih =>
      obtain ⟨hb, hrest⟩ := List.forall_mem_cons.mp h
      rw [List.cons_append, escapedNewlines, if_neg (by rw [hb]; decide)]
      exact ih hrest

theorem newlines_word (h : ∀ b ∈ word, b ≠ 0x0A) : newlines word = 0 :=
  List.countP_eq_zero.mpr fun b hb => by rw [beq_iff_eq]; exact h b hb

/-- A word that is taken leaves the line and the string it stands outside of as they are. -/
theorem word_spec (hword : ∀ b ∈ word, isQuote b = false ∧ b ≠ 0x0A) (more : Bytes) :
    line + escapedNewlines none (word ++ more) = line + newlines word + escapedNewlines none more := by
  rw [escapedNewlines_word fun b hb => (hword b hb).1, newlines_word fun b hb => (hword b hb).2, Nat.add_zero]

theorem plain_of_part : ∀ b, (isIdentPart b || isNumberPart b) = true → isQuote b = false ∧ b ≠ 0x0A :=
  Utf8.forall_byte (by decide +kernel)

theorem plain_of_punct : ∀ p ∈ PUNCTS, ∀ b ∈ Utf8.encode p.toList, isQuote b = false ∧ b ≠ 0x0A := by
  have hall : ∀ p ∈ PUNCTS, (Utf8.encode p.toList).all fun b => !isQuote b && b != 0x0A := by
    decide +kernel
  intro p hp b hb
  simpa using List.all_eq_true.mp (hall p hp) b hb

theorem pos_of_punct : ∀ p ∈ PUNCTS, 0 < (Utf8.encode p.toList).length := by decide +kernel

theorem take_length_takeWhile (p : UInt8 → Bool) (bytes : Bytes) :
    bytes.take (bytes.takeWhile p).length = bytes.takeWhile p :=
  (List.prefix_iff_eq_take.mp (List.takeWhile_prefix p)).symm

theorem pos_takeWhile {p : UInt8 → Bool} (h : p c = true) : 0 < ((c :: rest).takeWhile p).length := by
  rw [List.takeWhile_cons, if_pos h]
  exact Nat.succ_pos _

/-- **A turn takes bytes**, and its line leaves out the newlines that a string escapes in them. -/
theorem turn_spec {t : Turn} (h : turn c rest line = some t) :
    0 < t.taken ∧ t.taken ≤ (c :: rest).length ∧
      ∀ more, t.line + escapedNewlines none ((c :: rest).take t.taken ++ more) =
        line + newlines ((c :: rest).take t.taken) + escapedNewlines none more := by
  have hlong : ∀ p, ((c :: rest).takeWhile p).length ≤ (c :: rest).length := fun p =>
    (List.takeWhile_prefix p).length_le
  unfold turn at h
  dsimp only at h
  split at h
  · rename_i hline
    rw [beq_iff_eq] at hline
    obtain rfl := Option.some.inj h
    refine ⟨Nat.one_pos, by simp, fun more => ?_⟩
    show line + 1 + escapedNewlines none (c :: more) = line + newlines [c] + _
    rw [hline]
    rfl
  · rename_i hline
    rw [beq_iff_eq] at hline
    split at h
    · rename_i hspace
      obtain rfl := Option.some.inj h
      have hquote : ∀ b, isSpace b = true → isQuote b = false := Utf8.forall_byte (by decide +kernel)
      have hword : ∀ b ∈ [c], isQuote b = false ∧ b ≠ 0x0A :=
        List.forall_mem_singleton.mpr ⟨hquote c hspace, hline⟩
      exact ⟨Nat.one_pos, by simp, word_spec hword⟩
    · split at h
      · rename_i hstart
        obtain rfl := Option.some.inj h
        refine ⟨pos_takeWhile (by unfold isIdentPart; rw [hstart]; rfl), hlong _, ?_⟩
        rw [take_length_takeWhile]
        refine word_spec fun b hb => plain_of_part b ?_
        rw [List.mem_takeWhile_imp hb, Bool.true_or]
      · split at h
        · rename_i hdigit
          obtain rfl := Option.some.inj h
          refine ⟨pos_takeWhile (by unfold isNumberPart; rw [hdigit]; simp), hlong _, ?_⟩
          rw [take_length_takeWhile]
          refine word_spec fun b hb => plain_of_part b ?_
          rw [List.mem_takeWhile_imp hb, Bool.or_true]
        · split at h
          · rename_i hquote
            obtain ⟨⟨n, line'⟩, hskip, rfl⟩ := Option.map_eq_some_iff.mp h
            obtain ⟨hpos, hle, hcount⟩ := skipString_spec hline hskip
            refine ⟨Nat.succ_pos _, Nat.succ_le_succ hle, fun more => ?_⟩
            rw [List.take_succ_cons, List.cons_append, escapedNewlines, if_pos hquote, newlines_cons,
              if_neg hline, Nat.add_zero]
            exact hcount more
          · obtain ⟨p, hfind, rfl⟩ := Option.map_eq_some_iff.mp h
            have hmem := List.mem_of_find?_eq_some hfind
            have hprefix := List.isPrefixOf_iff_prefix.mp
              (List.find?_some (p := fun p : String => (Utf8.encode p.toList).isPrefixOf (c :: rest)) hfind)
            refine ⟨pos_of_punct p hmem, hprefix.length_le, ?_⟩
            rw [← List.prefix_iff_eq_take.mp hprefix]
            exact word_spec (plain_of_punct p hmem)


/-! ## All tokens -/

theorem encode_ascii (h : ∀ b ∈ word, b < 0x80) : Utf8.encode (asciiText word).toList = word := by
  have hone : ∀ b : UInt8, b < 0x80 → String.utf8EncodeChar (Char.ofNat b.toNat) = [b] :=
    Utf8.forall_byte (by decide +kernel)
  unfold asciiText
  rw [String.toList_ofList]
  induction word with
  | nil => rfl
  | cons b word ih =>
      obtain ⟨hb, hrest⟩ := List.forall_mem_cons.mp h
      rw [List.map_cons, Utf8.encode_cons, hone b hb, ih hrest]
      rfl

/-- A token of bytes that start at offset `i` on a line: an identifier stands where it starts, and its
line is the one it starts on but for the newlines that strings escape in front of it. -/
def Told (bytes : Bytes) (i line : Nat) (l : Lexeme) : Prop :=
  ∃ k, l.i = i + k ∧ k ≤ bytes.length ∧
    l.line + escapedNewlines none (bytes.take k) = line + newlines (bytes.take k) ∧
    ∀ name, l.tok = .ident name → Utf8.encode name.toList <+: bytes.drop k

/-- The token that a turn pushes stands in front. -/
theorem told_of_turn {t : Turn} {tok : Tok} {i : Nat} (h : turn c rest line = some t)
    (htok : t.tok = some tok) : Told (c :: rest) i line ⟨tok, i, line⟩ := by
  refine ⟨0, rfl, Nat.zero_le _, rfl, ?_⟩
  rintro name rfl
  unfold turn at h
  dsimp only at h
  -- only the turn of a word gives an identifier
  split at h
  · obtain rfl := Option.some.inj h
    cases htok
  · split at h
    · obtain rfl := Option.some.inj h
      cases htok
    · split at h
      · obtain rfl := Option.some.inj h
        obtain rfl := Tok.ident.inj (Option.some.inj htok)
        have hlow : ∀ b, isIdentPart b = true → b < 0x80 := Utf8.forall_byte (by decide +kernel)
        rw [encode_ascii fun b hb => hlow b (List.mem_takeWhile_imp hb)]
        exact List.takeWhile_prefix _
      · split at h
        · obtain rfl := Option.some.inj h
          cases htok
        · split at h
          · obtain ⟨r, -, rfl⟩ := Option.map_eq_some_iff.mp h
            cases htok
          · obtain ⟨p, -, rfl⟩ := Option.map_eq_some_iff.mp h
            cases htok

/-- What is told of the bytes behind a turn is told of all of them. -/
theorem Told.behind {t : Turn} {l : Lexeme} {i : Nat} (h : turn c rest line = some t)
    (hl : Told ((c :: rest).drop t.taken) (i + t.taken) t.line l) : Told (c :: rest) i line l := by
  obtain ⟨-, hle, hcount⟩ := turn_spec h
  obtain ⟨k, hk, hend, hline, hname⟩ := hl
  rw [List.length_drop] at hend
  have htake : (c :: rest).take (t.taken + k) =
      (c :: rest).take t.taken ++ ((c :: rest).drop t.taken).take k := List.take_add
  refine ⟨t.taken + k, by omega, by omega, ?_, fun name htok => ?_⟩
  · have hmore := hcount (((c :: rest).drop t.taken).take k)
    rw [htake, newlines_append]
    omega
  · have hstands := hname name htok
    rwa [List.drop_drop] at hstands

/-- **The lines of all tokens.** -/
theorem lexFrom_spec {turns i : Nat} {toks : List Lexeme} (h : lexFrom turns bytes i line = some toks) :
    ∀ l ∈ toks, Told bytes i line l := by
  induction turns generalizing bytes i line toks with
  | zero =>
      rcases bytes with _ | ⟨c, rest⟩
      · obtain rfl := Option.some.inj h
        exact fun l hl => absurd hl List.not_mem_nil
      · cases h
  | succ turns ih =>
      rcases bytes with _ | ⟨c, rest⟩
      · obtain rfl := Option.some.inj h
        exact fun l hl => absurd hl List.not_mem_nil
      · rw [lexFrom] at h
        obtain ⟨t, hturn, h⟩ := Option.bind_eq_some_iff.mp h
        obtain ⟨more, hmore, h⟩ := Option.bind_eq_some_iff.mp h
        have hbehind : ∀ l ∈ more, Told (c :: rest) i line l := fun l hl => (ih hmore l hl).behind hturn
        split at h
        · obtain rfl := Option.some.inj h
          exact hbehind
        · rename_i tok htok
          obtain rfl := Option.some.inj h
          exact List.forall_mem_cons.mpr ⟨told_of_turn hturn htok, hbehind⟩

/-- There are always turns enough: every turn takes a byte. -/
theorem lexFrom_turns {n m i : Nat} (hn : bytes.length ≤ n) (hm : bytes.length ≤ m) :
    lexFrom n bytes i line = lexFrom m bytes i line := by
  induction n generalizing bytes m i line with
  | zero =>
      obtain rfl := List.length_eq_zero_iff.mp (Nat.le_zero.mp hn)
      cases m <;> rfl
  | succ n ih =>
      rcases bytes with _ | ⟨c, rest⟩
      · cases m <;> rfl
      · obtain ⟨m, rfl⟩ : ∃ k, m = k + 1 := ⟨m - 1, by rw [List.length_cons] at hm; omega⟩
        rw [lexFrom, lexFrom]
        cases hturn : turn c rest line with
        | none => rfl
        | some t =>
            have hpos := (turn_spec hturn).1
            rw [List.length_cons] at hn hm
            have hrest : lexFrom n ((c :: rest).drop t.taken) (i + t.taken) t.line =
                lexFrom m ((c :: rest).drop t.taken) (i + t.taken) t.line := by
              refine ih ?_ ?_ <;> rw [List.length_drop, List.length_cons] <;> omega
            dsimp only [bind, Option.bind]
            rw [hrest]

end Lines

end Devscout.Template
