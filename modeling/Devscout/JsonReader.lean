/-
# Devscout.JsonReader -- the JSON reader of the registry

The registry is read by a small reader of its own, one character at a time, and written through a
JSON library. Here the reader is compared with the grammar. Strings, escapes, literals, commas and
what follows the value are as the grammar has them. Numbers are not: a run of digits, points and
exponents is cut out first and then left to the parsing of floating-point numbers, which lets a
number begin with zeros and lets the digits on one side of the point be missing. So the reader
accepts exactly the texts of the grammar that has those numbers; it agrees with RFC 8259 on every
text whose numbers are spelt as there.

A number is kept as its text; the double it stands for is a function of that. The loops run on
fuel, of which the length of the text is enough.
-/

import Devscout.Lib.JsonGrammar
import Devscout.Lib.JsonText

namespace Devscout.JsonReader

open Lib Lib.JsonGrammar

/-! ## Outcomes -/

/-- What a reader comes to: what it read and what is left, or the message it stops with. -/
inductive Outcome (α : Type) where
  | ok (a : α) (rest : Str)
  | error (message : Str)
  | outOfFuel

namespace Outcome

variable {α β : Type} {x : Outcome α} {f : α → Str → Outcome β}

/-- One reader behind another. -/
def andThen (x : Outcome α) (f : α → Str → Outcome β) : Outcome β :=
  match x with
  | ok a s => f a s
  | error message => error message
  | outOfFuel => outOfFuel

@[simp] theorem andThen_ok (a : α) (s : Str) : (ok a s).andThen f = f a s := rfl

theorem andThen_eq_ok {b : β} {r : Str} :
    x.andThen f = ok b r ↔ ∃ a s, x = ok a s ∧ f a s = ok b r := by
  cases x with
  | ok a s => exact ⟨fun h => ⟨a, s, rfl, h⟩, fun ⟨_, _, heq, h⟩ => by cases heq; exact h⟩
  | error message => exact ⟨nofun, fun ⟨_, _, heq, _⟩ => nomatch heq⟩
  | outOfFuel => exact ⟨nofun, fun ⟨_, _, heq, _⟩ => nomatch heq⟩

theorem andThen_ne_out (hx : x ≠ outOfFuel) (hf : ∀ a s, x = ok a s → f a s ≠ outOfFuel) :
    x.andThen f ≠ outOfFuel := by
  cases x with
  | ok a s => exact hf a s rfl
  | error message => exact nofun
  | outOfFuel => exact absurd rfl hx

end Outcome

open Outcome

def endOfInput : Str := "unexpected end of input".toList

/-- Where in a text of that length a reader is. -/
def position (total : Nat) (s : Str) : Str := JsonText.decimal (total - s.length)

def skipWs (s : Str) : Str := s.dropWhile isWs

/-! ## Strings -/

/-- `parse_hex4`. -/
def parseHex4 : Nat → Nat → Str → Outcome Nat
  | 0, value, s => .ok value s
  | _ + 1, _, [] => .error endOfInput
  | n + 1, value, c :: s =>
      match toDigit16 c with
      | some digit => parseHex4 n (value * 16 + digit) s
      | none => .error ("invalid hex digit '".toList ++ c :: ['\''])

/-- `char::from_u32`. -/
def fromU32 (n : Nat) : Option Char := if n.isValidChar then some (Char.ofNat n) else none

/-- Behind a high surrogate. -/
def parseLow (cp : Nat) : Str → Outcome Char
  | [] => .error endOfInput
  | '\\' :: 'u' :: s =>
      (parseHex4 4 0 s).andThen fun low s =>
        if 0xDC00 ≤ low ∧ low ≤ 0xDFFF then
          match fromU32 (0x10000 + (cp - 0xD800) * 0x400 + (low - 0xDC00)) with
          | some c => .ok c s
          | none => .error "invalid surrogate pair".toList
        else .error "invalid low surrogate".toList
  | _ => .error "unpaired high surrogate".toList

def parseUnicode (s : Str) : Outcome Char :=
  (parseHex4 4 0 s).andThen fun cp s =>
    if 0xD800 ≤ cp ∧ cp ≤ 0xDBFF then parseLow cp s else .ok ((fromU32 cp).getD replacement) s

/-- The escapes of one letter, in the order of the source. -/
def simpleEscape (c : Char) : Option Char :=
  match c with
  | '"' => some '"'
  | '\\' => some '\\'
  | '/' => some '/'
  | 'b' => some (Char.ofNat 0x8)
  | 'f' => some (Char.ofNat 0xc)
  | 'n' => some '\n'
  | 'r' => some '\r'
  | 't' => some '\t'
  | _ => none

/-- Behind a backslash. -/
def parseEscape : Str → Outcome Char
  | [] => .error endOfInput
  | e :: s =>
      if e = 'u' then parseUnicode s
      else
        match simpleEscape e with
        | some c => .ok c s
        | none => .error ("invalid escape '\\".toList ++ e :: ['\''])

/-- The loop of `parse_string`. -/
def parseStringFrom : Nat → Str → Outcome Str
  | 0, _ => .outOfFuel
  | _ + 1, [] => .error endOfInput
  | n + 1, c :: s =>
      if c = '"' then .ok [] s
      else if c = '\\' then
        (parseEscape s).andThen fun e s => (parseStringFrom n s).andThen fun out s => .ok (e :: out) s
      else if c.toNat < 0x20 then .error "control character in string".toList
      else (parseStringFrom n s).andThen fun out s => .ok (c :: out) s

/-- `parse_string`, behind the opening quote. -/
def parseString (s : Str) : Outcome Str := parseStringFrom (s.length + 1) s

/-! ## Numbers -/

def takeSign (signs : List Char) : Str → Str × Str
  | [] => ([], [])
  | c :: s => if c ∈ signs then ([c], s) else ([], c :: s)

/-- A point and the digits behind it. -/
def takeFrac : Str → Str × Str
  | [] => ([], [])
  | c :: s =>
      if c = '.' then (c :: s.takeWhile Char.isDigit, s.dropWhile Char.isDigit) else ([], c :: s)

/-- The letter of an exponent, its sign and its digits. -/
def takeExp : Str → Str × Str
  | [] => ([], [])
  | c :: s =>
      if c = 'e' ∨ c = 'E' then
        let (sign, s) := takeSign ['+', '-'] s
        (c :: (sign ++ s.takeWhile Char.isDigit), s.dropWhile Char.isDigit)
      else ([], c :: s)

/-- What `parse_number` cuts out, in its parts. -/
def splitNumber (s : Str) : Parts × Str :=
  let (sign, s) := takeSign ['-'] s
  let int := s.takeWhile Char.isDigit
  let (frac, s) := takeFrac (s.dropWhile Char.isDigit)
  let (exp, s) := takeExp s
  (⟨sign, int, frac, exp⟩, s)

/-- Whether `str::parse::<f64>` takes a text that `parse_number` may cut out: a digit before or behind
the point, and one in an exponent. The names of infinities and of NaN and a leading plus, which it
takes besides, are cut out of no text. -/
def parsesAsF64 (text : Str) : Bool :=
  let (p, rest) := splitNumber text
  rest.isEmpty && (!p.int.isEmpty || 1 < p.frac.length) && endsInDigit p.exp

/-- `parse_number`. -/
def parseNumber (s : Str) : Outcome Tree :=
  let (p, rest) := splitNumber s
  if parsesAsF64 p.text then .ok (.number p.text) rest
  else .error ("invalid number '".toList ++ p.text ++ "': invalid float literal".toList)

/-! ## Values -/

section Values

variable (total : Nat)

/-- The loop of `parse_literal`. -/
def parseLiteral (lit : Str) (value : Tree) : Str → Str → Outcome Tree
  | [], s => .ok value s
  | _ :: _, [] => .error endOfInput
  | e :: expected, c :: s =>
      if c = e then parseLiteral lit value expected s
      else .error ("expected literal '".toList ++ lit ++ "' at ".toList ++ position total (c :: s))

/-- `parse_array`, behind the bracket. -/
def parseArray (loop : Str → Outcome (List Tree)) (s : Str) : Outcome Tree :=
  match skipWs s with
  | [] => .error endOfInput
  | c :: s =>
      if c = ']' then .ok (.array []) s else (loop (c :: s)).andThen fun items s => .ok (.array items) s

/-- `parse_object`, behind the brace. -/
def parseObject (loop : Str → Outcome (List (Str × Tree))) (s : Str) : Outcome Tree :=
  match skipWs s with
  | [] => .error endOfInput
  | c :: s =>
      if c = '\x7d' then .ok (.object []) s
      else (loop (c :: s)).andThen fun entries s => .ok (.object entries) s

def trueText : Str := ['t', 'r', 'u', 'e']
def falseText : Str := ['f', 'a', 'l', 's', 'e']
def nullText : Str := ['n', 'u', 'l', 'l']

mutual

/-- `parse_value`. -/
def parseValue : Nat → Str → Outcome Tree
  | 0, _ => .outOfFuel
  | n + 1, s =>
      match skipWs s with
      | [] => .error endOfInput
      | c :: s =>
          if c = '\x7b' then parseObject (parseMembers n) s
          else if c = '[' then parseArray (parseItems n) s
          else if c = '"' then (parseString s).andThen fun x s => .ok (.string x) s
          else if c = 't' then parseLiteral total trueText (.bool true) trueText (c :: s)
          else if c = 'f' then parseLiteral total falseText (.bool false) falseText (c :: s)
          else if c = 'n' then parseLiteral total nullText .null nullText (c :: s)
          else if c = '-' ∨ c.isDigit then parseNumber (c :: s)
          else
            .error ("unexpected character '".toList ++ c :: "' at ".toList ++ position total (c :: s))

/-- The loop of `parse_array`. -/
def parseItems : Nat → Str → Outcome (List Tree)
  | 0, _ => .outOfFuel
  | n + 1, s =>
      (parseValue n s).andThen fun v s =>
        match skipWs s with
        | [] => .error endOfInput
        | c :: s =>
            if c = ',' then (parseItems n s).andThen fun items s => .ok (v :: items) s
            else if c = ']' then .ok [v] s
            else .error ("expected ',' or ']' at ".toList ++ position total (c :: s) ++
              " (got '".toList ++ c :: "')".toList)

/-- The loop of `parse_object`. -/
def parseMembers : Nat → Str → Outcome (List (Str × Tree))
  | 0, _ => .outOfFuel
  | n + 1, s =>
      match skipWs s with
      | [] => .error endOfInput
      | c :: s =>
          if c = '"' then
            (parseString s).andThen fun key s =>
              match skipWs s with
              | [] => .error endOfInput
              | c :: s =>
                  if c = ':' then
                    (parseValue n s).andThen fun v s =>
                      match skipWs s with
                      | [] => .error endOfInput
                      | c :: s =>
                          if c = ',' then
                            (parseMembers n s).andThen fun entries s => .ok ((key, v) :: entries) s
                          else if c = '\x7d' then .ok [(key, v)] s
                          else .error ("expected ',' or '\x7d' at ".toList ++ position total (c :: s) ++
                            " (got '".toList ++ c :: "')".toList)
                  else .error ("expected ':' at ".toList ++ position total (c :: s))
          else .error ("expected string key at ".toList ++ position total (c :: s))

end

end Values

/-- `parse`. -/
def parse (input : Str) : Outcome Tree :=
  (parseValue input.length (2 * input.length + 1) (skipWs input)).andThen fun v s =>
    let s := skipWs s
    if s = [] then .ok v []
    else .error ("unexpected trailing data at position ".toList ++ position input.length s)

/-! ## The dialect of the reader -/

/-- The numbers that the reader takes, and the low surrogates that it replaces. -/
def reader : Dialect := ⟨fun t => startsNumber t = true ∧ parsesAsF64 t = true, fun n => 0xDC00 ≤ n⟩

/-! ## White space -/

section Text

variable {s r : Str}

theorem ws_skipWs (s : Str) : Ws s (skipWs s) :=
  ⟨s.takeWhile isWs, fun c hc => List.all_eq_true.mp List.all_takeWhile c hc,
    List.takeWhile_append_dropWhile.symm⟩

theorem skipWs_length_le (s : Str) : (skipWs s).length ≤ s.length := (ws_skipWs s).length_le

/-- White space is skipped to its end. -/
theorem skipWs_cons {c : Char} (h : Ws s (c :: r)) (hc : isWs c = false) : skipWs s = c :: r := by
  obtain ⟨w, hw, rfl⟩ := h
  rw [skipWs, List.dropWhile_append_of_pos hw,
    List.dropWhile_cons_of_neg (by rw [hc]; exact Bool.false_ne_true)]

theorem skipWs_nil (h : Ws s []) : skipWs s = [] := by
  obtain ⟨w, hw, rfl⟩ := h
  rw [List.append_nil, skipWs, List.dropWhile_eq_nil_iff]
  exact hw

/-! ## The parts of a number -/

theorem takeWhile_digits {ds : Str} (hds : Digits ds) (hr : ∀ c ∈ r.head?, c.isDigit = false) :
    (ds ++ r).takeWhile Char.isDigit = ds ∧ (ds ++ r).dropWhile Char.isDigit = r := by
  rw [List.takeWhile_append_of_pos hds, List.dropWhile_append_of_pos hds]
  cases r with
  | nil => exact ⟨List.append_nil ds, rfl⟩
  | cons c r =>
      have hc : ¬c.isDigit = true := by rw [hr c rfl]; exact Bool.false_ne_true
      rw [List.takeWhile_cons_of_neg hc, List.dropWhile_cons_of_neg hc]
      exact ⟨List.append_nil ds, rfl⟩

theorem digits_takeWhile (s : Str) : Digits (s.takeWhile Char.isDigit) :=
  fun c hc => List.all_eq_true.mp List.all_takeWhile c hc

theorem takeSign_eq (signs : List Char) (s : Str) :
    (takeSign signs s).1 ++ (takeSign signs s).2 = s ∧
      ((takeSign signs s).1 = [] ∨ ∃ c ∈ signs, (takeSign signs s).1 = [c]) := by
  cases s with
  | nil => exact ⟨rfl, Or.inl rfl⟩
  | cons c s =>
      rw [takeSign]
      split
      · rename_i hc
        exact ⟨rfl, Or.inr ⟨c, hc, rfl⟩⟩
      · exact ⟨rfl, Or.inl rfl⟩

theorem takeSign_append {signs : List Char} {sign : Str} (hsign : sign = [] ∨ ∃ c ∈ signs, sign = [c])
    (hr : sign = [] → ∀ c ∈ r.head?, c ∉ signs) : takeSign signs (sign ++ r) = (sign, r) := by
  rcases hsign with rfl | ⟨c, hc, rfl⟩
  · cases r with
    | nil => rfl
    | cons c r => exact if_neg (hr rfl c rfl)
  · exact if_pos hc

theorem takeFrac_eq (s : Str) :
    (takeFrac s).1 ++ (takeFrac s).2 = s ∧ Marked pointMark (takeFrac s).1 := by
  cases s with
  | nil => exact ⟨rfl, Or.inl rfl⟩
  | cons c s =>
      rw [takeFrac]
      split
      · rename_i hc
        have hmark : pointMark [c] := by rw [hc]; rfl
        exact ⟨congrArg (c :: ·) List.takeWhile_append_dropWhile,
          Or.inr ⟨[c], _, rfl, hmark, digits_takeWhile s⟩⟩
      · exact ⟨rfl, Or.inl rfl⟩

theorem takeFrac_append {frac : Str} (hfrac : Marked pointMark frac)
    (hr : ∀ c ∈ r.head?, c.isDigit = false ∧ c ≠ '.') : takeFrac (frac ++ r) = (frac, r) := by
  rcases hfrac with rfl | ⟨m, ds, rfl, rfl, hds⟩
  · cases r with
    | nil => rfl
    | cons c r => exact if_neg (hr c rfl).2
  · have hspan := takeWhile_digits hds fun c hc => (hr c hc).1
    show takeFrac ('.' :: (ds ++ r)) = _
    rw [takeFrac, if_pos rfl, hspan.1, hspan.2]
    rfl

theorem takeExp_eq (s : Str) :
    (takeExp s).1 ++ (takeExp s).2 = s ∧ Marked exponentMark (takeExp s).1 := by
  cases s with
  | nil => exact ⟨rfl, Or.inl rfl⟩
  | cons c s =>
      rw [takeExp]
      split
      · rename_i hc
        obtain ⟨hsplit, hsign⟩ := takeSign_eq ['+', '-'] s
        have hmark : exponentMark (c :: (takeSign ['+', '-'] s).1) :=
          ⟨[c], _, rfl, hc.imp (congrArg fun c => [c]) (congrArg fun c => [c]), by simpa using hsign⟩
        refine ⟨?_, Or.inr ⟨c :: (takeSign ['+', '-'] s).1, _, rfl, hmark, digits_takeWhile _⟩⟩
        dsimp only
        rw [List.cons_append, List.append_assoc, List.takeWhile_append_dropWhile, hsplit]
      · exact ⟨rfl, Or.inl rfl⟩

theorem takeExp_append {exp : Str} (hexp : Marked exponentMark exp) (hr : Delimited r) :
    takeExp (exp ++ r) = (exp, r) := by
  have hdigit : ∀ c ∈ r.head?, c.isDigit = false := fun c hc => by
    have hnumber := hr c hc
    simp only [isNumberChar, Bool.or_eq_false_iff] at hnumber
    exact hnumber.1.1.1.1.1
  rcases hexp with rfl | ⟨m, ds, rfl, ⟨e, sign, rfl, he, hsign⟩, hds⟩
  · cases r with
    | nil => rfl
    | cons c r =>
        have hc := hr c rfl
        simp only [isNumberChar, Bool.or_eq_false_iff, beq_eq_false_iff_ne] at hc
        exact if_neg (not_or.mpr ⟨hc.1.2, hc.2⟩)
  · obtain ⟨c, rfl, hc⟩ : ∃ c, e = [c] ∧ (c = 'e' ∨ c = 'E') :=
      he.elim (fun h => ⟨'e', h, Or.inl rfl⟩) (fun h => ⟨'E', h, Or.inr rfl⟩)
    have hspan := takeWhile_digits hds hdigit
    have hrest : sign = [] → ∀ d ∈ (ds ++ r).head?, d ∉ ['+', '-'] := by
      intro _ d hd
      have hnot : d.isDigit = true ∨ isNumberChar d = false := by
        cases ds with
        | nil => exact Or.inr (hr d hd)
        | cons x ds => exact Or.inl (hds d (Option.some.inj hd ▸ List.mem_cons_self))
      rw [List.mem_cons, List.mem_singleton]
      rintro (rfl | rfl) <;> exact absurd hnot (by decide)
    have htake := @takeSign_append (ds ++ r) ['+', '-'] sign (by simpa using hsign) hrest
    show takeExp (c :: (sign ++ ds ++ r)) = _
    rw [takeExp, if_pos hc, List.append_assoc, htake]
    dsimp only
    rw [hspan.1, hspan.2]
    rfl

/-- What is cut out has the form of a number. -/
theorem splitNumber_eq (s : Str) :
    s = (splitNumber s).1.text ++ (splitNumber s).2 ∧ (splitNumber s).1.Shaped := by
  obtain ⟨hsign, hsigns⟩ := takeSign_eq ['-'] s
  obtain ⟨hfrac, hfracs⟩ := takeFrac_eq ((takeSign ['-'] s).2.dropWhile Char.isDigit)
  obtain ⟨hexp, hexps⟩ := takeExp_eq (takeFrac ((takeSign ['-'] s).2.dropWhile Char.isDigit)).2
  refine ⟨?_, by simpa [splitNumber] using hsigns, digits_takeWhile _, hfracs, hexps⟩
  simp only [splitNumber, Parts.text, List.append_assoc, hexp, hfrac, hsign,
    List.takeWhile_append_dropWhile]

/-- The first character of a part and what follows it. -/
theorem marked_head {mark : Str → Prop} {P : Char → Prop}
    (hmark : ∀ m, mark m → ∃ c cs, m = c :: cs ∧ P c) {part : Str} (h : Marked mark part)
    (hr : ∀ c ∈ r.head?, P c) : ∀ c ∈ (part ++ r).head?, P c := by
  rcases h with rfl | ⟨m, ds, rfl, hm, -⟩
  · exact hr
  · obtain ⟨c, cs, rfl, hc⟩ := hmark m hm
    intro d hd
    obtain rfl : c = d := Option.some.inj hd
    exact hc

theorem pointMark_head {m : Str} (h : pointMark m) :
    ∃ c cs, m = c :: cs ∧ c.isDigit = false ∧ c ≠ '-' := ⟨'.', [], h, by decide⟩

theorem exponentMark_head {m : Str} (h : exponentMark m) :
    ∃ c cs, m = c :: cs ∧ (c.isDigit = false ∧ c ≠ '.') ∧ c ≠ '-' := by
  obtain ⟨e, sign, rfl, rfl | rfl, -⟩ := h
  · exact ⟨'e', sign, rfl, by decide⟩
  · exact ⟨'E', sign, rfl, by decide⟩

theorem delimited_head (hr : Delimited r) : ∀ c ∈ r.head?, (c.isDigit = false ∧ c ≠ '.') ∧ c ≠ '-' := by
  intro c hc
  have h := hr c hc
  simp only [isNumberChar, Bool.or_eq_false_iff, beq_eq_false_iff_ne] at h
  exact ⟨⟨h.1.1.1.1.1, h.1.1.2⟩, h.1.1.1.1.2⟩

/-- **A number is cut out whole**, where no number goes on behind it. -/
theorem splitNumber_append {p : Parts} (hp : p.Shaped) (hr : Delimited r) :
    splitNumber (p.text ++ r) = (p, r) := by
  -- what each part is followed by
  have hexp : ∀ c ∈ (p.exp ++ r).head?, (c.isDigit = false ∧ c ≠ '.') ∧ c ≠ '-' :=
    marked_head (fun _ => exponentMark_head) hp.exp (delimited_head hr)
  have hfrac : ∀ c ∈ (p.frac ++ (p.exp ++ r)).head?, c.isDigit = false ∧ c ≠ '-' :=
    marked_head (fun _ => pointMark_head) hp.frac fun c hc => ⟨(hexp c hc).1.1, (hexp c hc).2⟩
  have hint : ∀ c ∈ (p.int ++ (p.frac ++ (p.exp ++ r))).head?, c ∉ ['-'] := by
    intro c hc hmem
    obtain rfl := List.mem_singleton.mp hmem
    cases hi : p.int with
    | nil =>
        rw [hi] at hc
        exact (hfrac _ hc).2 rfl
    | cons d ds =>
        rw [hi] at hc
        obtain rfl : d = '-' := Option.some.inj hc
        exact absurd (hp.int '-' (hi ▸ List.mem_cons_self)) (by decide)
  have htext : p.text ++ r = p.sign ++ (p.int ++ (p.frac ++ (p.exp ++ r))) := by
    simp only [Parts.text, List.append_assoc]
  have htake : takeSign ['-'] (p.text ++ r) = (p.sign, p.int ++ (p.frac ++ (p.exp ++ r))) := by
    rw [htext]
    exact takeSign_append (by simpa using hp.sign) fun _ => hint
  have hspan := takeWhile_digits hp.int fun c hc => (hfrac c hc).1
  rw [splitNumber, htake]
  dsimp only
  rw [hspan.1, hspan.2, takeFrac_append hp.frac fun c hc => (hexp c hc).1]
  dsimp only
  rw [takeExp_append hp.exp hr]

theorem splitNumber_text {p : Parts} (hp : p.Shaped) : splitNumber p.text = (p, []) := by
  have h := splitNumber_append hp (show Delimited [] from nofun)
  rwa [List.append_nil] at h

/-! ## The numbers of the reader -/

theorem digits_chars {ds : Str} (h : Digits ds) : ∀ c ∈ ds, isNumberChar c = true := fun c hc => by
  rw [isNumberChar, h c hc]
  rfl

theorem shaped_chars {p : Parts} (h : p.Shaped) : ∀ c ∈ p.text, isNumberChar c = true := by
  have hpart : ∀ {mark : Str → Prop} {part : Str}, (∀ m, mark m → ∀ c ∈ m, isNumberChar c = true) →
      Marked mark part → ∀ c ∈ part, isNumberChar c = true := by
    rintro mark part hmark (rfl | ⟨m, ds, rfl, hm, hds⟩)
    · exact nofun
    · exact fun c hc => (List.mem_append.mp hc).elim (hmark m hm c) (digits_chars hds c)
  have hsign : ∀ c ∈ p.sign, isNumberChar c = true := by
    rcases h.sign with hs | hs <;> rw [hs]
    · exact nofun
    · exact fun c hc => List.mem_singleton.mp hc ▸ rfl
  have hpoint : ∀ m, pointMark m → ∀ c ∈ m, isNumberChar c = true := by
    rintro m rfl c hc
    exact List.mem_singleton.mp hc ▸ rfl
  have hexponent : ∀ m, exponentMark m → ∀ c ∈ m, isNumberChar c = true := by
    rintro m ⟨e, sign, rfl, he, hs⟩ c hc
    rcases List.mem_append.mp hc with hc | hc
    · rcases he with rfl | rfl <;> exact List.mem_singleton.mp hc ▸ rfl
    · rcases hs with rfl | rfl | rfl
      · exact nomatch hc
      · exact List.mem_singleton.mp hc ▸ rfl
      · exact List.mem_singleton.mp hc ▸ rfl
  intro c hc
  simp only [Parts.text, List.mem_append] at hc
  rcases hc with hc | hc | hc | hc
  · exact hsign c hc
  · exact digits_chars h.int c hc
  · exact hpart hpoint h.frac c hc
  · exact hpart hexponent h.exp c hc

theorem parsesAsF64_iff {t : Str} : parsesAsF64 t = true ↔ ∃ p : Parts, t = p.text ∧ p.Shaped ∧
    (p.int ≠ [] ∨ 1 < p.frac.length) ∧ endsInDigit p.exp = true := by
  constructor
  · intro h
    obtain ⟨heq, hshaped⟩ := splitNumber_eq t
    simp only [parsesAsF64, Bool.and_eq_true, Bool.or_eq_true, List.isEmpty_iff, Bool.not_eq_true',
      List.isEmpty_eq_false_iff, decide_eq_true_eq] at h
    rw [h.1.1, List.append_nil] at heq
    exact ⟨_, heq, hshaped, h.1.2, h.2⟩
  · rintro ⟨p, rfl, hshaped, hdigit, hexp⟩
    simp only [parsesAsF64, splitNumber_text hshaped, Bool.and_eq_true, Bool.or_eq_true,
      List.isEmpty_iff, Bool.not_eq_true', List.isEmpty_eq_false_iff, decide_eq_true_eq]
    exact ⟨⟨trivial, hdigit⟩, hexp⟩

theorem reader_lexical : reader.Lexical := by
  rintro t ⟨hstart, hparses⟩
  obtain ⟨p, rfl, hshaped, -, -⟩ := parsesAsF64_iff.mp hparses
  exact ⟨hstart, shaped_chars hshaped⟩

theorem startsNumber_of_int {p : Parts} (hp : p.Shaped) (hint : p.int ≠ []) :
    startsNumber p.text = true := by
  rcases hp.sign with hs | hs
  · obtain ⟨d, ds, hi⟩ := List.exists_cons_of_ne_nil hint
    have hd := hp.int d (hi ▸ List.mem_cons_self)
    rw [Parts.text, hs, hi]
    show (d == '-' || d.isDigit) = true
    rw [hd, Bool.or_true]
  · rw [Parts.text, hs]
    rfl

/-- The reader takes the numbers of RFC 8259. -/
theorem reader_of_jsonNumber {t : Str} (h : JsonNumber t) : reader.number t := by
  obtain ⟨p, rfl, hshaped, hint, -, -, hexp⟩ := h
  exact ⟨startsNumber_of_int hshaped hint, parsesAsF64_iff.mpr ⟨p, rfl, hshaped, Or.inl hint, hexp⟩⟩

theorem rfc8259_lexical : rfc8259.Lexical := fun _ h => reader_lexical _ (reader_of_jsonNumber h)

theorem parseNumber_ok {v : Tree} (h : parseNumber s = .ok v r) (hstart : startsNumber s = true) :
    Value reader s v r := by
  obtain ⟨heq, hshaped⟩ := splitNumber_eq s
  rw [parseNumber] at h
  dsimp only at h
  split at h
  · rename_i hparses
    obtain ⟨rfl, rfl⟩ := Outcome.ok.inj h
    obtain ⟨c, cs, hc⟩ : ∃ c cs, (splitNumber s).1.text = c :: cs := by
      refine List.exists_cons_of_ne_nil fun hnil => ?_
      rw [hnil] at hparses
      exact absurd hparses (by decide)
    have hfirst : startsNumber (splitNumber s).1.text = true := by
      rw [heq, hc] at hstart
      rw [hc]
      exact hstart
    have hvalue := @Value.number reader _ ⟨hfirst, hparses⟩ (splitNumber s).2
    rwa [← heq] at hvalue
  · exact nomatch h

theorem parseNumber_number {t : Str} (h : reader.number t) (hr : Delimited r) :
    parseNumber (t ++ r) = .ok (.number t) r := by
  obtain ⟨p, rfl, hshaped, -, -⟩ := parsesAsF64_iff.mp h.2
  rw [parseNumber, splitNumber_append hshaped hr]
  exact if_pos h.2

/-! ## Strings and the grammar -/

theorem parseHex4_succ {n value unit : Nat} : parseHex4 (n + 1) value s = .ok unit r ↔
    ∃ c s' digit, s = c :: s' ∧ toDigit16 c = some digit ∧
      parseHex4 n (value * 16 + digit) s' = .ok unit r := by
  cases s with
  | nil => exact ⟨nofun, fun ⟨_, _, _, heq, _⟩ => nomatch heq⟩
  | cons c s' =>
      rw [parseHex4]
      cases hc : toDigit16 c with
      | none =>
          refine ⟨nofun, fun ⟨c', s'', digit, heq, hdigit, _⟩ => ?_⟩
          obtain ⟨rfl, rfl⟩ := List.cons.inj heq
          exact nomatch hc.symm.trans hdigit
      | some digit =>
          refine ⟨fun h => ⟨c, s', digit, rfl, hc, h⟩, fun ⟨c', s'', digit', heq, hdigit, h⟩ => ?_⟩
          obtain ⟨rfl, rfl⟩ := List.cons.inj heq
          obtain rfl := Option.some.inj (hc.symm.trans hdigit)
          exact h

theorem parseHex4_iff {unit : Nat} : parseHex4 4 0 s = .ok unit r ↔ Hex4 s unit r := by
  constructor
  · intro h
    obtain ⟨a, s₁, i, rfl, ha, h⟩ := parseHex4_succ.mp h
    obtain ⟨b, s₂, j, rfl, hb, h⟩ := parseHex4_succ.mp h
    obtain ⟨c, s₃, k, rfl, hc, h⟩ := parseHex4_succ.mp h
    obtain ⟨d, s₄, l, rfl, hd, h⟩ := parseHex4_succ.mp h
    obtain ⟨rfl, rfl⟩ := Outcome.ok.inj h
    exact ⟨a, b, c, d, i, j, k, l, rfl, ha, hb, hc, hd, by omega⟩
  · rintro ⟨a, b, c, d, i, j, k, l, rfl, ha, hb, hc, hd, rfl⟩
    simp [parseHex4, ha, hb, hc, hd]

theorem fromU32_eq {n : Nat} (h : n < 0xD800 ∨ 0xE000 ≤ n) (hlt : n < 0x110000) :
    fromU32 n = some (Char.ofNat n) := by
  have hvalid : n.isValidChar := by
    rcases h with h | h
    · exact Or.inl h
    · exact Or.inr ⟨by omega, hlt⟩
  rw [fromU32, if_pos hvalid]

theorem fromU32_surrogate {n : Nat} (h : 0xD800 ≤ n ∧ n < 0xE000) : fromU32 n = none := by
  refine if_neg ?_
  rintro (hlow | ⟨hhigh, -⟩)
  · exact absurd h.1 (Nat.not_le.mpr hlow)
  · omega

theorem simpleEscape_eq (e : Char) : simpleEscape e = shortEscape e := by
  unfold simpleEscape shortEscape
  split <;> first | rfl | skip
  rename_i h1 h2 h3 h4 h5 h6 h7 h8
  rw [if_neg (by rintro (h | h | h) <;> contradiction), if_neg h4, if_neg h5, if_neg h6, if_neg h7,
    if_neg h8]

/-- What `parse_low` accepts: a low surrogate, and nothing else. -/
theorem parseLow_iff {hi : Nat} (hhi : 0xD800 ≤ hi ∧ hi < 0xDC00) {c : Char} : parseLow hi s = .ok c r ↔
    ∃ lo s', s = '\\' :: 'u' :: s' ∧ Hex4 s' lo r ∧ (0xDC00 ≤ lo ∧ lo < 0xE000) ∧
      c = Char.ofNat (0x10000 + (hi - 0xD800) * 0x400 + (lo - 0xDC00)) := by
  have hpair : ∀ lo, 0xDC00 ≤ lo ∧ lo < 0xE000 →
      fromU32 (0x10000 + (hi - 0xD800) * 0x400 + (lo - 0xDC00)) =
        some (Char.ofNat (0x10000 + (hi - 0xD800) * 0x400 + (lo - 0xDC00))) :=
    fun lo hlo => fromU32_eq (by omega) (by omega)
  constructor
  · intro h
    unfold parseLow at h
    split at h
    · exact nomatch h
    · rename_i s'
      obtain ⟨lo, s'', hhex, h⟩ := andThen_eq_ok.mp h
      split at h
      · rename_i hlo
        rw [hpair lo (by omega)] at h
        obtain ⟨rfl, rfl⟩ := Outcome.ok.inj h
        exact ⟨lo, s', rfl, parseHex4_iff.mp hhex, by omega, rfl⟩
      · exact nomatch h
    · exact nomatch h
  · rintro ⟨lo, s', hs, hhex, hlo, hc⟩
    rw [hs, hc, parseLow, parseHex4_iff.mpr hhex, andThen_ok, if_pos (by omega), hpair lo hlo]

/-- What stands behind a backslash, as the grammar has it. -/
theorem body_of_escape {e : Char} {t x r' : Str} (h : parseEscape s = .ok e t)
    (hbody : Body reader t x r') : Body reader ('\\' :: s) (e :: x) r' := by
  unfold parseEscape at h
  split at h
  · exact nomatch h
  · rename_i c s'
    split at h
    · rename_i hu
      subst hu
      obtain ⟨cp, s'', hhex, h⟩ := andThen_eq_ok.mp h
      have hunit := parseHex4_iff.mp hhex
      have hlt := hunit.lt
      split at h
      · rename_i hhi
        obtain ⟨lo, s''', hs, hlow, hlo, he⟩ := (parseLow_iff (by omega)).mp h
        rw [he]
        exact .pair (hs ▸ hunit) hlow (by omega) hlo hbody
      · rename_i hhi
        obtain ⟨rfl, rfl⟩ := Outcome.ok.inj h
        by_cases hsurrogate : 0xD800 ≤ cp ∧ cp < 0xE000
        · -- a low surrogate that is alone
          rw [fromU32_surrogate hsurrogate]
          exact .lone hunit hsurrogate (show 0xDC00 ≤ cp by omega) hbody
        · rw [fromU32_eq (by omega) (by omega)]
          exact .unit hunit (by omega) hbody
    · rw [simpleEscape_eq] at h
      split at h
      · rename_i hshort
        obtain ⟨rfl, rfl⟩ := Outcome.ok.inj h
        exact .short hshort hbody
      · exact nomatch h

theorem body_of_parseStringFrom {n : Nat} {x : Str} (h : parseStringFrom n s = .ok x r) :
    Body reader s x r := by
  induction n generalizing s x r with
  | zero => exact nomatch h
  | succ n ih =>
      cases s with
      | nil => exact nomatch h
      | cons c s =>
          rw [parseStringFrom] at h
          split at h
          · rename_i hquote
            obtain ⟨rfl, rfl⟩ := Outcome.ok.inj h
            rw [hquote]
            exact .close s
          · rename_i hquote
            split at h
            · rename_i hslash
              obtain ⟨e, t, hescape, h⟩ := andThen_eq_ok.mp h
              obtain ⟨out, t', hrest, h⟩ := andThen_eq_ok.mp h
              obtain ⟨rfl, rfl⟩ := Outcome.ok.inj h
              rw [hslash]
              exact body_of_escape hescape (ih hrest)
            · rename_i hslash
              split at h
              · exact nomatch h
              · rename_i hlow
                obtain ⟨out, t, hrest, h⟩ := andThen_eq_ok.mp h
                obtain ⟨rfl, rfl⟩ := Outcome.ok.inj h
                exact .plain hlow hquote hslash (ih hrest)

example : (parseString ['a', '\\', 'n', '"', 'b'] matches .ok ['a', '\n'] ['b']) = true := by
  decide +kernel

theorem parseEscape_short {e c : Char} (h : shortEscape e = some c) (s : Str) :
    parseEscape (e :: s) = .ok c s := by
  have hu : e ≠ 'u' := fun heq => by
    have hnone : shortEscape 'u' = none := rfl
    rw [← heq, h] at hnone
    exact nomatch hnone
  rw [parseEscape, if_neg hu, simpleEscape_eq, h]

theorem parseEscape_unit {n : Nat} (hu : Hex4 s n r) (hn : n < 0xD800 ∨ 0xE000 ≤ n) :
    parseEscape ('u' :: s) = .ok (Char.ofNat n) r := by
  have hlt := hu.lt
  rw [parseEscape, if_pos rfl, parseUnicode, parseHex4_iff.mpr hu, andThen_ok, if_neg (by omega),
    fromU32_eq hn (by omega)]
  rfl

theorem parseEscape_pair {hi lo : Nat} {s' : Str} (hu : Hex4 s hi ('\\' :: 'u' :: s'))
    (hl : Hex4 s' lo r) (hhi : 0xD800 ≤ hi ∧ hi < 0xDC00) (hlo : 0xDC00 ≤ lo ∧ lo < 0xE000) :
    parseEscape ('u' :: s) =
      .ok (Char.ofNat (0x10000 + (hi - 0xD800) * 0x400 + (lo - 0xDC00))) r := by
  rw [parseEscape, if_pos rfl, parseUnicode, parseHex4_iff.mpr hu, andThen_ok, if_pos (by omega)]
  exact (parseLow_iff hhi).mpr ⟨lo, s', rfl, hl, hlo, rfl⟩

theorem parseEscape_lone {n : Nat} (hu : Hex4 s n r) (hn : 0xDC00 ≤ n ∧ n < 0xE000) :
    parseEscape ('u' :: s) = .ok replacement r := by
  rw [parseEscape, if_pos rfl, parseUnicode, parseHex4_iff.mpr hu, andThen_ok, if_neg (by omega),
    fromU32_surrogate (by omega)]
  rfl

/-- **A string is read as what it says.** -/
theorem parseStringFrom_body {n : Nat} {x : Str} (h : Body reader s x r) (hn : s.length ≤ n) :
    parseStringFrom n s = .ok x r := by
  -- behind an escape, the rest of the string is read
  have hescape : ∀ {e : Char} {s t out rest : Str} {n : Nat}, parseEscape s = .ok e t →
      parseStringFrom n t = .ok out rest →
      parseStringFrom (n + 1) ('\\' :: s) = .ok (e :: out) rest := by
    intro e s t out rest n he hrest
    rw [parseStringFrom, if_neg (by decide), if_pos rfl, he, andThen_ok, hrest]
    rfl
  induction h generalizing n with
  | close r =>
      obtain ⟨n, rfl⟩ : ∃ k, n = k + 1 := ⟨n - 1, by rw [List.length_cons] at hn; omega⟩
      rfl
  | plain hlow hquote hslash _ ih =>
      obtain ⟨n, rfl⟩ : ∃ k, n = k + 1 := ⟨n - 1, by rw [List.length_cons] at hn; omega⟩
      rw [parseStringFrom, if_neg hquote, if_neg hslash, if_neg hlow, ih (by simpa using hn)]
      rfl
  | short he _ ih =>
      rw [List.length_cons, List.length_cons] at hn
      obtain ⟨n, rfl⟩ : ∃ k, n = k + 1 := ⟨n - 1, by omega⟩
      exact hescape (parseEscape_short he _) (ih (by omega))
  | unit hu hunit _ ih =>
      rw [List.length_cons, List.length_cons, hu.length] at hn
      obtain ⟨n, rfl⟩ : ∃ k, n = k + 1 := ⟨n - 1, by omega⟩
      exact hescape (parseEscape_unit hu hunit) (ih (by omega))
  | pair hu hl hhi hlo _ ih =>
      rw [List.length_cons, List.length_cons, hu.length, List.length_cons, List.length_cons,
        hl.length] at hn
      obtain ⟨n, rfl⟩ : ∃ k, n = k + 1 := ⟨n - 1, by omega⟩
      exact hescape (parseEscape_pair hu hl hhi hlo) (ih (by omega))
  | lone hu hsurrogate hlone _ ih =>
      rw [List.length_cons, List.length_cons, hu.length] at hn
      obtain ⟨n, rfl⟩ : ∃ k, n = k + 1 := ⟨n - 1, by omega⟩
      exact hescape (parseEscape_lone hu ⟨hlone, hsurrogate.2⟩) (ih (by omega))

/-- **Strings are those of the grammar.** -/
theorem parseString_iff {x : Str} : parseString s = .ok x r ↔ Body reader s x r :=
  ⟨body_of_parseStringFrom, fun h => parseStringFrom_body h (Nat.le_succ _)⟩

/-! ## Fuel for strings -/

theorem parseHex4_ne_out (n value : Nat) (s : Str) : parseHex4 n value s ≠ .outOfFuel := by
  induction n generalizing value s with
  | zero => exact nofun
  | succ n ih =>
      cases s with
      | nil => exact nofun
      | cons c s =>
          rw [parseHex4]
          split
          · exact ih _ _
          · exact nofun

theorem parseLow_ne_out (cp : Nat) (s : Str) : parseLow cp s ≠ .outOfFuel := by
  unfold parseLow
  split
  · exact nofun
  · refine andThen_ne_out (parseHex4_ne_out _ _ _) fun low s _ => ?_
    split
    · split <;> exact nofun
    · exact nofun
  · exact nofun

theorem parseEscape_ne_out (s : Str) : parseEscape s ≠ .outOfFuel := by
  unfold parseEscape
  split
  · exact nofun
  · split
    · refine andThen_ne_out (parseHex4_ne_out _ _ _) fun cp s _ => ?_
      split
      · exact parseLow_ne_out cp s
      · exact nofun
    · split <;> exact nofun

/-- An escape takes something away. -/
theorem parseEscape_length {e : Char} {t : Str} (h : parseEscape s = .ok e t) :
    t.length < s.length := by
  unfold parseEscape at h
  split at h
  · exact nomatch h
  · rw [List.length_cons]
    split at h
    · obtain ⟨cp, s'', hhex, h⟩ := andThen_eq_ok.mp h
      have hlength := (parseHex4_iff.mp hhex).length
      split at h
      · obtain ⟨lo, s''', hs, hlow, -, -⟩ := (parseLow_iff (by omega)).mp h
        have hrest := hlow.length
        rw [hs, List.length_cons, List.length_cons] at hlength
        omega
      · obtain ⟨-, rfl⟩ := Outcome.ok.inj h
        omega
    · split at h
      · obtain ⟨-, rfl⟩ := Outcome.ok.inj h
        exact Nat.lt_succ_self _
      · exact nomatch h

theorem parseStringFrom_ne_out {n : Nat} (hn : s.length < n) : parseStringFrom n s ≠ .outOfFuel := by
  induction n generalizing s with
  | zero => exact absurd hn (Nat.not_lt_zero _)
  | succ n ih =>
      cases s with
      | nil => exact nofun
      | cons c s =>
          rw [List.length_cons] at hn
          rw [parseStringFrom]
          split
          · exact nofun
          · split
            · refine andThen_ne_out (parseEscape_ne_out s) fun e t he => ?_
              have hlength := parseEscape_length he
              exact andThen_ne_out (ih (by omega)) fun _ _ _ => nofun
            · split
              · exact nofun
              · exact andThen_ne_out (ih (by omega)) fun _ _ _ => nofun

/-! ## Literals -/

theorem parseLiteral_ok {total : Nat} {lit expected : Str} {value v : Tree}
    (h : parseLiteral total lit value expected s = .ok v r) : s = expected ++ r ∧ v = value := by
  induction expected generalizing s with
  | nil =>
      obtain ⟨rfl, rfl⟩ := Outcome.ok.inj h
      exact ⟨rfl, rfl⟩
  | cons e expected ih =>
      cases s with
      | nil => exact nomatch h
      | cons c s =>
          rw [parseLiteral] at h
          split at h
          · rename_i hc
            obtain ⟨rfl, hv⟩ := ih h
            exact ⟨congrArg (· :: _) hc, hv⟩
          · exact nomatch h

theorem parseLiteral_append (total : Nat) (lit expected : Str) (value : Tree) (r : Str) :
    parseLiteral total lit value expected (expected ++ r) = .ok value r := by
  induction expected with
  | nil => rfl
  | cons e expected ih =>
      rw [List.cons_append, parseLiteral, if_pos rfl]
      exact ih

theorem parseLiteral_ne_out (total : Nat) (lit expected : Str) (value : Tree) (s : Str) :
    parseLiteral total lit value expected s ≠ .outOfFuel := by
  induction expected generalizing s with
  | nil => exact nofun
  | cons e expected ih =>
      cases s with
      | nil => exact nofun
      | cons c s =>
          rw [parseLiteral]
          split
          · exact ih s
          · exact nofun

theorem parseNumber_ne_out (s : Str) : parseNumber s ≠ .outOfFuel := by
  rw [parseNumber]
  dsimp only
  split <;> exact nofun

end Text

end Devscout.JsonReader
