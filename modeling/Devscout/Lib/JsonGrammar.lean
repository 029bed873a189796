/-
# Devscout.Lib.JsonGrammar -- the grammar of JSON texts

A derivation says which value stands at the front of a text and what is left behind it. The
grammar is that of RFC 8259, and two points of it are left to a dialect: which texts are numbers,
and which surrogate escapes may stand alone. A value keeps its fields in order, a repeated key
included, and a number keeps its text.

The numbers of a text can also be found without a derivation: outside strings, they are the runs
of number characters that begin as a number does. Every derivation finds these and no others.
-/

import Devscout.Lib.Text

namespace Devscout.Lib.JsonGrammar

/-! ## Values -/

inductive Tree where
  | null
  | bool (b : Bool)
  | number (text : Str)
  | string (s : Str)
  | array (items : List Tree)
  | object (fields : List (Str × Tree))

mutual

/-- The texts of the numbers in a value, in order. -/
def Tree.numbers : Tree → List Str
  | .number text => [text]
  | .array items => itemNumbers items
  | .object fields => fieldNumbers fields
  | _ => []

def itemNumbers : List Tree → List Str
  | [] => []
  | v :: items => v.numbers ++ itemNumbers items

def fieldNumbers : List (Str × Tree) → List Str
  | [] => []
  | (_, v) :: fields => v.numbers ++ fieldNumbers fields

end

/-! ## Strings -/

/-- What a hexadecimal digit stands for. -/
def toDigit16 (c : Char) : Option Nat :=
  if '0' ≤ c ∧ c ≤ '9' then some (c.toNat - 48)
  else if 'a' ≤ c ∧ c ≤ 'f' then some (c.toNat - 87)
  else if 'A' ≤ c ∧ c ≤ 'F' then some (c.toNat - 55)
  else none

/-- The escapes of one letter. -/
def shortEscape (c : Char) : Option Char :=
  if c = '"' ∨ c = '\\' ∨ c = '/' then some c
  else if c = 'b' then some (Char.ofNat 8)
  else if c = 'f' then some (Char.ofNat 12)
  else if c = 'n' then some '\n'
  else if c = 'r' then some '\r'
  else if c = 't' then some '\t'
  else none

theorem toDigit16_lt {c : Char} {d : Nat} (h : toDigit16 c = some d) : d < 16 := by
  have hnine : '9'.toNat = 57 := rfl
  have hlow : 'f'.toNat = 102 := rfl
  have hhigh : 'F'.toNat = 70 := rfl
  unfold toDigit16 at h
  split at h
  · rename_i hc
    have hle : c.toNat ≤ '9'.toNat := hc.2
    have hd := Option.some.inj h
    omega
  · split at h
    · rename_i hc
      have hle : c.toNat ≤ 'f'.toNat := hc.2
      have hd := Option.some.inj h
      omega
    · split at h
      · rename_i hc
        have hle : c.toNat ≤ 'F'.toNat := hc.2
        have hd := Option.some.inj h
        omega
      · exact nomatch h

/-- Four hexadecimal digits, and what is behind them. -/
def Hex4 (s : Str) (unit : Nat) (rest : Str) : Prop :=
  ∃ a b c d i j k l, s = a :: b :: c :: d :: rest ∧ toDigit16 a = some i ∧ toDigit16 b = some j ∧
    toDigit16 c = some k ∧ toDigit16 d = some l ∧ unit = ((i * 16 + j) * 16 + k) * 16 + l

theorem Hex4.lt {s r : Str} {n : Nat} (h : Hex4 s n r) : n < 0x10000 := by
  obtain ⟨a, b, c, d, i, j, k, l, -, ha, hb, hc, hd, rfl⟩ := h
  have hi := toDigit16_lt ha
  have hj := toDigit16_lt hb
  have hk := toDigit16_lt hc
  have hl := toDigit16_lt hd
  omega

theorem Hex4.length {s r : Str} {n : Nat} (h : Hex4 s n r) : s.length = r.length + 4 := by
  obtain ⟨a, b, c, d, i, j, k, l, rfl, -⟩ := h
  rfl

/-- What a text means beyond the common grammar. -/
structure Dialect where
  number : Str → Prop
  lone : Nat → Prop

/-- What stands for a surrogate that is alone. -/
def replacement : Char := Char.ofNat 0xFFFD

/-- What is left of a string behind its opening quote, with what it says. -/
inductive Body (D : Dialect) : Str → Str → Str → Prop
  | close (r : Str) : Body D ('"' :: r) [] r
  | plain {c : Char} {s x r : Str} (hlow : ¬c.toNat < 0x20) (hquote : c ≠ '"') (hslash : c ≠ '\\')
      (h : Body D s x r) : Body D (c :: s) (c :: x) r
  | short {e c : Char} {s x r : Str} (he : shortEscape e = some c) (h : Body D s x r) :
      Body D ('\\' :: e :: s) (c :: x) r
  | unit {n : Nat} {s s' x r : Str} (hu : Hex4 s n s') (hn : n < 0xD800 ∨ 0xE000 ≤ n)
      (h : Body D s' x r) : Body D ('\\' :: 'u' :: s) (Char.ofNat n :: x) r
  | pair {hi lo : Nat} {s s' s'' x r : Str} (hu : Hex4 s hi ('\\' :: 'u' :: s')) (hl : Hex4 s' lo s'')
      (hhi : 0xD800 ≤ hi ∧ hi < 0xDC00) (hlo : 0xDC00 ≤ lo ∧ lo < 0xE000) (h : Body D s'' x r) :
      Body D ('\\' :: 'u' :: s) (Char.ofNat (0x10000 + (hi - 0xD800) * 0x400 + (lo - 0xDC00)) :: x) r
  | lone {n : Nat} {s s' x r : Str} (hu : Hex4 s n s') (hn : 0xD800 ≤ n ∧ n < 0xE000) (hlone : D.lone n)
      (h : Body D s' x r) : Body D ('\\' :: 'u' :: s) (replacement :: x) r

theorem Body.length_lt {D : Dialect} {s x r : Str} (h : Body D s x r) : r.length < s.length := by
  induction h with
  | close r => exact Nat.lt_succ_self _
  | plain _ _ _ _ ih => exact ih.trans (Nat.lt_succ_self _)
  | short _ _ ih =>
      rw [List.length_cons, List.length_cons]
      omega
  | unit hu _ _ ih | lone hu _ _ _ ih =>
      rw [List.length_cons, List.length_cons, hu.length]
      omega
  | pair hu hl _ _ _ ih =>
      rw [List.length_cons, List.length_cons, hu.length, List.length_cons, List.length_cons, hl.length]
      omega

/-! ## Documents -/

def isWs (c : Char) : Bool := c == ' ' || c == '\t' || c == '\n' || c == '\r'

/-- What is left when some white space is taken away. -/
def Ws (s r : Str) : Prop := ∃ w : Str, (∀ c ∈ w, isWs c = true) ∧ s = w ++ r

theorem Ws.refl (s : Str) : Ws s s := ⟨[], nofun, rfl⟩

theorem Ws.trans {s r t : Str} (h : Ws s r) (h' : Ws r t) : Ws s t := by
  obtain ⟨w, hw, rfl⟩ := h
  obtain ⟨w', hw', rfl⟩ := h'
  exact ⟨w ++ w', fun c hc => (List.mem_append.mp hc).elim (hw c) (hw' c),
    (List.append_assoc w w' t).symm⟩

theorem Ws.length_le {s r : Str} (h : Ws s r) : r.length ≤ s.length := by
  obtain ⟨w, -, rfl⟩ := h
  rw [List.length_append]
  omega

mutual

/-- The text begins with a value. -/
inductive Value (D : Dialect) : Str → Tree → Str → Prop
  | null (r : Str) : Value D ('n' :: 'u' :: 'l' :: 'l' :: r) .null r
  | true (r : Str) : Value D ('t' :: 'r' :: 'u' :: 'e' :: r) (.bool true) r
  | false (r : Str) : Value D ('f' :: 'a' :: 'l' :: 's' :: 'e' :: r) (.bool false) r
  | number {t : Str} (h : D.number t) (r : Str) : Value D (t ++ r) (.number t) r
  | string {s x r : Str} (h : Body D s x r) : Value D ('"' :: s) (.string x) r
  | emptyArray {s r : Str} (h : Ws s (']' :: r)) : Value D ('[' :: s) (.array []) r
  | array {s r : Str} {vs : List Tree} (h : Items D s vs r) : Value D ('[' :: s) (.array vs) r
  | emptyObject {s r : Str} (h : Ws s ('\x7d' :: r)) : Value D ('\x7b' :: s) (.object []) r
  | object {s r : Str} {fs : List (Str × Tree)} (h : Members D s fs r) :
      Value D ('\x7b' :: s) (.object fs) r

/-- A value with white space around it. -/
inductive Spaced (D : Dialect) : Str → Tree → Str → Prop
  | mk {s s' s'' r : Str} {v : Tree} (hbefore : Ws s s') (h : Value D s' v s'') (hafter : Ws s'' r) :
      Spaced D s v r

/-- The items of an array, to the closing bracket. -/
inductive Items (D : Dialect) : Str → List Tree → Str → Prop
  | last {s r : Str} {v : Tree} (h : Spaced D s v (']' :: r)) : Items D s [v] r
  | more {s s' r : Str} {v : Tree} {vs : List Tree} (h : Spaced D s v (',' :: s'))
      (hs : Items D s' vs r) : Items D s (v :: vs) r

/-- The members of an object, to the closing brace. -/
inductive Members (D : Dialect) : Str → List (Str × Tree) → Str → Prop
  | last {s s₁ s₂ s₃ k r : Str} {v : Tree} (hbefore : Ws s ('"' :: s₁)) (hk : Body D s₁ k s₂)
      (hcolon : Ws s₂ (':' :: s₃)) (h : Spaced D s₃ v ('\x7d' :: r)) : Members D s [(k, v)] r
  | more {s s₁ s₂ s₃ s₄ k r : Str} {v : Tree} {fs : List (Str × Tree)} (hbefore : Ws s ('"' :: s₁))
      (hk : Body D s₁ k s₂) (hcolon : Ws s₂ (':' :: s₃)) (h : Spaced D s₃ v (',' :: s₄))
      (hs : Members D s₄ fs r) : Members D s ((k, v) :: fs) r

end

/-- The whole text is one value. -/
def Doc (D : Dialect) (s : Str) (v : Tree) : Prop := Spaced D s v []

section Documents

variable {D : Dialect} {s₀ s r : Str}

theorem Spaced.before {v : Tree} (h : Spaced D s v r) (hws : Ws s₀ s) : Spaced D s₀ v r := by
  obtain ⟨hbefore, hvalue, hafter⟩ := h
  exact ⟨hws.trans hbefore, hvalue, hafter⟩

theorem Items.before {vs : List Tree} (h : Items D s vs r) (hws : Ws s₀ s) : Items D s₀ vs r := by
  cases h with
  | last hv => exact .last (hv.before hws)
  | more hv hs => exact .more (hv.before hws) hs

theorem Members.before {fs : List (Str × Tree)} (h : Members D s fs r) (hws : Ws s₀ s) :
    Members D s₀ fs r := by
  cases h with
  | last hbefore hk hcolon hv => exact .last (hws.trans hbefore) hk hcolon hv
  | more hbefore hk hcolon hv hs => exact .more (hws.trans hbefore) hk hcolon hv hs

end Documents

mutual

/-- A value takes something away, unless its dialect has an empty number. -/
theorem Value.length_lt {D : Dialect} (hD : ¬D.number []) {s r : Str} {v : Tree} (h : Value D s v r) :
    r.length < s.length := by
  match h with
  | .null r | .true r | .false r =>
      simp only [List.length_cons]
      omega
  | .number (t := t) ht r =>
      cases t with
      | nil => exact absurd ht hD
      | cons c t =>
          rw [List.length_append, List.length_cons]
          omega
  | .string hbody => exact hbody.length_lt.trans (Nat.lt_succ_self _)
  | .emptyArray hws | .emptyObject hws =>
      have hle := hws.length_le
      rw [List.length_cons] at hle ⊢
      omega
  | .array hitems => exact (hitems.length_lt hD).trans (Nat.lt_succ_self _)
  | .object hmembers => exact (hmembers.length_lt hD).trans (Nat.lt_succ_self _)

theorem Spaced.length_lt {D : Dialect} (hD : ¬D.number []) {s r : Str} {v : Tree} (h : Spaced D s v r) :
    r.length < s.length := by
  match h with
  | .mk hbefore hvalue hafter =>
      exact (hafter.length_le.trans_lt (hvalue.length_lt hD)).trans_le hbefore.length_le

theorem Items.length_lt {D : Dialect} (hD : ¬D.number []) {s r : Str} {vs : List Tree}
    (h : Items D s vs r) : r.length < s.length := by
  match h with
  | .last hv =>
      have hlt := hv.length_lt hD
      rw [List.length_cons] at hlt
      omega
  | .more hv hs =>
      have hlt := hv.length_lt hD
      have hrest := hs.length_lt hD
      rw [List.length_cons] at hlt
      omega

theorem Members.length_lt {D : Dialect} (hD : ¬D.number []) {s r : Str} {fs : List (Str × Tree)}
    (h : Members D s fs r) : r.length < s.length := by
  match h with
  | .last hbefore hk hcolon hv =>
      have hle := hbefore.length_le
      have hkey := hk.length_lt
      have hcol := hcolon.length_le
      have hlt := hv.length_lt hD
      rw [List.length_cons] at hle hcol hlt
      omega
  | .more hbefore hk hcolon hv hs =>
      have hle := hbefore.length_le
      have hkey := hk.length_lt
      have hcol := hcolon.length_le
      have hlt := hv.length_lt hD
      have hrest := hs.length_lt hD
      rw [List.length_cons] at hle hcol hlt
      omega

end

/-! ## More text behind a derivation -/

section Append

variable {D : Dialect} (w : Str)

theorem Ws.append {s r : Str} (h : Ws s r) : Ws (s ++ w) (r ++ w) := by
  obtain ⟨b, hb, rfl⟩ := h
  exact ⟨b, hb, List.append_assoc b r w⟩

theorem Hex4.append {s r : Str} {n : Nat} (h : Hex4 s n r) : Hex4 (s ++ w) n (r ++ w) := by
  obtain ⟨a, b, c, d, i, j, k, l, rfl, hdigits⟩ := h
  exact ⟨a, b, c, d, i, j, k, l, rfl, hdigits⟩

theorem Body.append {s x r : Str} (h : Body D s x r) : Body D (s ++ w) x (r ++ w) := by
  induction h with
  | close r => exact .close (r ++ w)
  | plain hlow hquote hslash _ ih => exact .plain hlow hquote hslash ih
  | short he _ ih => exact .short he ih
  | unit hu hn _ ih => exact .unit (hu.append w) hn ih
  | pair hu hl hhi hlo _ ih => exact .pair (hu.append w) (hl.append w) hhi hlo ih
  | lone hu hn hlone _ ih => exact .lone (hu.append w) hn hlone ih

mutual

/-- A derivation leaves what is behind it alone. -/
theorem Value.append {D : Dialect} (w : Str) {s r : Str} {v : Tree} (h : Value D s v r) :
    Value D (s ++ w) v (r ++ w) := by
  match h with
  | .null r => exact .null (r ++ w)
  | .true r => exact .true (r ++ w)
  | .false r => exact .false (r ++ w)
  | .number ht r =>
      rw [List.append_assoc]
      exact .number ht (r ++ w)
  | .string hbody => exact .string (hbody.append w)
  | .emptyArray hws => exact .emptyArray (hws.append w)
  | .array hitems => exact .array (hitems.append w)
  | .emptyObject hws => exact .emptyObject (hws.append w)
  | .object hmembers => exact .object (hmembers.append w)

theorem Spaced.append {D : Dialect} (w : Str) {s r : Str} {v : Tree} (h : Spaced D s v r) :
    Spaced D (s ++ w) v (r ++ w) := by
  match h with
  | .mk hbefore hvalue hafter => exact ⟨hbefore.append w, hvalue.append w, hafter.append w⟩

theorem Items.append {D : Dialect} (w : Str) {s r : Str} {vs : List Tree} (h : Items D s vs r) :
    Items D (s ++ w) vs (r ++ w) := by
  match h with
  | .last hv => exact .last (hv.append w)
  | .more hv hs => exact .more (hv.append w) (hs.append w)

theorem Members.append {D : Dialect} (w : Str) {s r : Str} {fs : List (Str × Tree)}
    (h : Members D s fs r) : Members D (s ++ w) fs (r ++ w) := by
  match h with
  | .last hbefore hk hcolon hv =>
      exact .last (hbefore.append w) (hk.append w) (hcolon.append w) (hv.append w)
  | .more hbefore hk hcolon hv hs =>
      exact .more (hbefore.append w) (hk.append w) (hcolon.append w) (hv.append w) (hs.append w)

end

/-- A document may end in white space. -/
theorem Doc.append {s : Str} {v : Tree} {w : Str} (h : Doc D s v) (hw : ∀ c ∈ w, isWs c = true) :
    Doc D (s ++ w) v := by
  obtain ⟨hbefore, hvalue, hafter⟩ := Spaced.append w h
  exact ⟨hbefore, hvalue, hafter.trans ⟨w, hw, (List.append_nil _).symm⟩⟩

end Append

/-! ## Numbers -/

/-- A number in its four parts: the sign, the integer, the fraction and the exponent. -/
structure Parts where
  sign : Str
  int : Str
  frac : Str
  exp : Str

def Parts.text (p : Parts) : Str := p.sign ++ (p.int ++ (p.frac ++ p.exp))

def Digits (s : Str) : Prop := ∀ c ∈ s, c.isDigit = true

/-- Digits behind a mark, unless there is nothing. -/
def Marked (mark : Str → Prop) (s : Str) : Prop := s = [] ∨ ∃ m ds, s = m ++ ds ∧ mark m ∧ Digits ds

def pointMark (m : Str) : Prop := m = ['.']

def exponentMark (m : Str) : Prop :=
  ∃ e sign : Str, m = e ++ sign ∧ (e = ['e'] ∨ e = ['E']) ∧ (sign = [] ∨ sign = ['+'] ∨ sign = ['-'])

/-- Each part has its form, and may lack digits. -/
structure Parts.Shaped (p : Parts) : Prop where
  sign : p.sign = [] ∨ p.sign = ['-']
  int : Digits p.int
  frac : Marked pointMark p.frac
  exp : Marked exponentMark p.exp

/-- The part ends with a digit, unless it is empty. -/
def endsInDigit (s : Str) : Bool := s.getLast?.all Char.isDigit

/-- The numbers of RFC 8259: no zero before another digit, and a digit behind every mark. -/
def JsonNumber (t : Str) : Prop := ∃ p : Parts, t = p.text ∧ p.Shaped ∧ p.int ≠ [] ∧
  (p.int.head? = some '0' → p.int.length = 1) ∧ endsInDigit p.frac = true ∧ endsInDigit p.exp = true

/-- RFC 8259, with surrogate escapes in pairs or alone. -/
def rfc8259 : Dialect := ⟨JsonNumber, fun _ => True⟩

/-- RFC 8259 for texts without an unpaired surrogate escape. -/
def rfc8259Paired : Dialect := ⟨JsonNumber, fun _ => False⟩

/-! ## The numbers of a text -/

def isNumberChar (c : Char) : Bool :=
  c.isDigit || c == '-' || c == '+' || c == '.' || c == 'e' || c == 'E'

/-- The text begins as a number does. -/
def startsNumber : Str → Bool
  | [] => false
  | c :: _ => c == '-' || c.isDigit

/-- Where a scan for numbers is: outside strings with the run of number characters so far, in a
string, or behind a backslash there. -/
inductive Scan where
  | outside (run : Str)
  | inside
  | escaped

def flush (run : Str) : List Str := if startsNumber run then [run] else []

/-- The numbers that a scan of the text finds. -/
def numberTokens : Scan → Str → List Str
  | .outside run, [] => flush run
  | .outside run, c :: s =>
      if isNumberChar c then numberTokens (.outside (run ++ [c])) s
      else flush run ++ numberTokens (if c = '"' then .inside else .outside []) s
  | .inside, [] => []
  | .inside, c :: s =>
      numberTokens (if c = '"' then .outside [] else if c = '\\' then .escaped else .inside) s
  | .escaped, [] => []
  | .escaped, _ :: s => numberTokens .inside s

/-- The numbers of a text are made of number characters. -/
def Dialect.Lexical (D : Dialect) : Prop :=
  ∀ t, D.number t → startsNumber t = true ∧ ∀ c ∈ t, isNumberChar c = true

/-- No number goes on at the front of the text. -/
def Delimited (s : Str) : Prop := ∀ c ∈ s.head?, isNumberChar c = false

/-! ## The scan and the derivations -/

section Tokens

variable {D : Dialect} {s r x : Str} {v : Tree}

theorem numberTokens_skip {c : Char} (hnumber : isNumberChar c = false) (hquote : c ≠ '"') (s : Str) :
    numberTokens (.outside []) (c :: s) = numberTokens (.outside []) s := by
  rw [numberTokens, if_neg (by rw [hnumber]; exact Bool.false_ne_true), if_neg hquote]
  rfl

/-- The digit in the string is no number. -/
example : numberTokens (.outside []) ['[', '1', ',', '"', '2', '"', ']'] = [['1']] := by decide +kernel

theorem numberTokens_ws (h : Ws s r) : numberTokens (.outside []) s = numberTokens (.outside []) r := by
  obtain ⟨w, hw, rfl⟩ := h
  induction w with
  | nil => rfl
  | cons c w ih =>
      have hc := hw c List.mem_cons_self
      have hchars : isNumberChar c = false ∧ c ≠ '"' := by
        simp only [isWs, Bool.or_eq_true, beq_iff_eq] at hc
        rcases hc with ((rfl | rfl) | rfl) | rfl <;> decide
      rw [List.cons_append, numberTokens_skip hchars.1 hchars.2]
      exact ih fun d hd => hw d (List.mem_cons_of_mem c hd)

theorem numberTokens_run {run t : Str} (ht : ∀ c ∈ t, isNumberChar c = true) (r : Str) :
    numberTokens (.outside run) (t ++ r) = numberTokens (.outside (run ++ t)) r := by
  induction t generalizing run with
  | nil => rw [List.nil_append, List.append_nil]
  | cons c t ih =>
      rw [List.cons_append, numberTokens, if_pos (ht c List.mem_cons_self),
        ih fun d hd => ht d (List.mem_cons_of_mem c hd), List.append_assoc, List.singleton_append]

theorem numberTokens_flush {run : Str} (h : Delimited r) :
    numberTokens (.outside run) r = flush run ++ numberTokens (.outside []) r := by
  cases r with
  | nil => simp [numberTokens, flush, startsNumber]
  | cons c r =>
      have hc : ¬isNumberChar c = true := by rw [h c rfl]; exact Bool.false_ne_true
      rw [numberTokens, numberTokens, if_neg hc, if_neg hc]
      rfl

theorem toDigit16_plain {c : Char} {i : Nat} (h : toDigit16 c = some i) : c ≠ '"' ∧ c ≠ '\\' := by
  constructor
  · rintro rfl
    exact nomatch (show toDigit16 '"' = none from rfl).symm.trans h
  · rintro rfl
    exact nomatch (show toDigit16 '\\' = none from rfl).symm.trans h

theorem numberTokens_inside {c : Char} (hquote : c ≠ '"') (hslash : c ≠ '\\') (s : Str) :
    numberTokens .inside (c :: s) = numberTokens .inside s := by
  rw [numberTokens, if_neg hquote, if_neg hslash]

theorem Hex4.tokens {n : Nat} (h : Hex4 s n r) : numberTokens .inside s = numberTokens .inside r := by
  obtain ⟨a, b, c, d, i, j, k, l, rfl, ha, hb, hc, hd, -⟩ := h
  rw [numberTokens_inside (toDigit16_plain ha).1 (toDigit16_plain ha).2,
    numberTokens_inside (toDigit16_plain hb).1 (toDigit16_plain hb).2,
    numberTokens_inside (toDigit16_plain hc).1 (toDigit16_plain hc).2,
    numberTokens_inside (toDigit16_plain hd).1 (toDigit16_plain hd).2]

theorem numberTokens_escape (e : Char) (s : Str) :
    numberTokens .inside ('\\' :: e :: s) = numberTokens .inside s := rfl

/-- A string is passed over. -/
theorem Body.tokens (h : Body D s x r) : numberTokens .inside s = numberTokens (.outside []) r := by
  induction h with
  | close r => rfl
  | plain _ hquote hslash _ ih => rw [numberTokens_inside hquote hslash, ih]
  | short _ _ ih => rw [numberTokens_escape, ih]
  | unit hu _ _ ih => rw [numberTokens_escape, hu.tokens, ih]
  | pair hu hl _ _ _ ih => rw [numberTokens_escape, hu.tokens, numberTokens_escape, hl.tokens, ih]
  | lone hu _ _ _ ih => rw [numberTokens_escape, hu.tokens, ih]

/-- Behind a value, before white space and a sign of punctuation, no number goes on. -/
theorem Ws.delimited {c : Char} (h : Ws s (c :: r)) (hc : isNumberChar c = false) : Delimited s := by
  obtain ⟨w, hw, rfl⟩ := h
  intro d hd
  cases w with
  | nil =>
      obtain rfl : c = d := Option.some.inj hd
      exact hc
  | cons e w =>
      obtain rfl : e = d := Option.some.inj hd
      have he := hw e List.mem_cons_self
      simp only [isWs, Bool.or_eq_true, beq_iff_eq] at he
      rcases he with ((rfl | rfl) | rfl) | rfl <;> decide

theorem Ws.delimited_end (h : Ws s []) : Delimited s := by
  obtain ⟨w, hw, rfl⟩ := h
  rcases w with _ | ⟨e, w⟩
  · exact fun d hd => nomatch hd
  · have hrest : Ws (e :: w ++ []) (e :: w) := ⟨[], nofun, by rw [List.append_nil, List.nil_append]⟩
    have he := hw e List.mem_cons_self
    refine hrest.delimited ?_
    simp only [isWs, Bool.or_eq_true, beq_iff_eq] at he
    rcases he with ((rfl | rfl) | rfl) | rfl <;> decide

theorem Body.tokens_quoted (h : Body D s x r) :
    numberTokens (.outside []) ('"' :: s) = numberTokens (.outside []) r := h.tokens

/-- A word that ends in an `e` leaves a run of one letter, which is no number. -/
theorem numberTokens_word (hr : Delimited r) :
    numberTokens (.outside ['e']) r = numberTokens (.outside []) r := numberTokens_flush hr

mutual

/-- **The numbers of a value are those of its text.** -/
theorem Value.tokens (hD : D.Lexical) {s r : Str} {v : Tree} (h : Value D s v r) (hr : Delimited r) :
    numberTokens (.outside []) s = v.numbers ++ numberTokens (.outside []) r := by
  match h with
  | .null r => rfl
  | .true r => exact numberTokens_word hr
  | .false r => exact numberTokens_word hr
  | .number ht r =>
      obtain ⟨hstart, hchars⟩ := hD _ ht
      rw [numberTokens_run hchars, List.nil_append, numberTokens_flush hr, flush, if_pos hstart]
      rfl
  | .string hbody => exact hbody.tokens
  | .emptyArray hws =>
      rw [numberTokens_skip (by decide) (by decide), numberTokens_ws hws,
        numberTokens_skip (by decide) (by decide)]
      rfl
  | .array hitems =>
      rw [numberTokens_skip (by decide) (by decide), hitems.tokens hD]
      rfl
  | .emptyObject hws =>
      rw [numberTokens_skip (by decide) (by decide), numberTokens_ws hws,
        numberTokens_skip (by decide) (by decide)]
      rfl
  | .object hmembers =>
      rw [numberTokens_skip (by decide) (by decide), hmembers.tokens hD]
      rfl

theorem Spaced.tokens (hD : D.Lexical) {s r : Str} {v : Tree} (h : Spaced D s v r)
    (hr : ∀ s', Ws s' r → Delimited s') :
    numberTokens (.outside []) s = v.numbers ++ numberTokens (.outside []) r := by
  match h with
  | .mk hbefore hvalue hafter =>
      rw [numberTokens_ws hbefore, hvalue.tokens hD (hr _ hafter), numberTokens_ws hafter]

theorem Items.tokens (hD : D.Lexical) {s r : Str} {vs : List Tree} (h : Items D s vs r) :
    numberTokens (.outside []) s = itemNumbers vs ++ numberTokens (.outside []) r := by
  match h with
  | .last hv =>
      rw [hv.tokens hD fun _ hws => hws.delimited rfl, numberTokens_skip (by decide) (by decide),
        itemNumbers, itemNumbers, List.append_nil]
  | .more hv hs =>
      rw [hv.tokens hD fun _ hws => hws.delimited rfl, numberTokens_skip (by decide) (by decide),
        hs.tokens hD, itemNumbers, List.append_assoc]

theorem Members.tokens (hD : D.Lexical) {s r : Str} {fs : List (Str × Tree)} (h : Members D s fs r) :
    numberTokens (.outside []) s = fieldNumbers fs ++ numberTokens (.outside []) r := by
  match h with
  | .last hbefore hk hcolon hv =>
      rw [numberTokens_ws hbefore, hk.tokens_quoted, numberTokens_ws hcolon,
        numberTokens_skip (by decide) (by decide), hv.tokens hD fun _ hws => hws.delimited rfl,
        numberTokens_skip (by decide) (by decide), fieldNumbers, fieldNumbers, List.append_nil]
  | .more hbefore hk hcolon hv hs =>
      rw [numberTokens_ws hbefore, hk.tokens_quoted, numberTokens_ws hcolon,
        numberTokens_skip (by decide) (by decide), hv.tokens hD fun _ hws => hws.delimited rfl,
        numberTokens_skip (by decide) (by decide), hs.tokens hD, fieldNumbers, List.append_assoc]

end

/-- The numbers of a document are found by the scan. -/
theorem Doc.tokens (hD : D.Lexical) (h : Doc D s v) : numberTokens (.outside []) s = v.numbers := by
  have hscan := Spaced.tokens hD h fun _ hws => hws.delimited_end
  rwa [show numberTokens (.outside []) [] = [] from rfl, List.append_nil] at hscan

end Tokens

/-! ## From dialect to dialect -/

section Retype

variable {D D' : Dialect} (hlone : ∀ n, D.lone n → D'.lone n)

include hlone in
theorem Body.retype {s x r : Str} (h : Body D s x r) : Body D' s x r := by
  induction h with
  | close r => exact .close r
  | plain hlow hquote hslash _ ih => exact .plain hlow hquote hslash ih
  | short he _ ih => exact .short he ih
  | unit hu hn _ ih => exact .unit hu hn ih
  | pair hu hl hhi hlo _ ih => exact .pair hu hl hhi hlo ih
  | lone hu hn hl _ ih => exact .lone hu hn (hlone _ hl) ih

mutual

/-- A value whose numbers the other dialect has is a value of that dialect. -/
theorem Value.retype (hlone : ∀ n, D.lone n → D'.lone n) {s r : Str} {v : Tree} (h : Value D s v r)
    (hnum : ∀ t ∈ v.numbers, D'.number t) : Value D' s v r := by
  match h with
  | .null r => exact .null r
  | .true r => exact .true r
  | .false r => exact .false r
  | .number ht r => exact .number (hnum _ List.mem_cons_self) r
  | .string hbody => exact .string (hbody.retype hlone)
  | .emptyArray hws => exact .emptyArray hws
  | .array hitems => exact .array (hitems.retype hlone hnum)
  | .emptyObject hws => exact .emptyObject hws
  | .object hmembers => exact .object (hmembers.retype hlone hnum)

theorem Spaced.retype (hlone : ∀ n, D.lone n → D'.lone n) {s r : Str} {v : Tree} (h : Spaced D s v r)
    (hnum : ∀ t ∈ v.numbers, D'.number t) : Spaced D' s v r := by
  match h with
  | .mk hbefore hvalue hafter => exact .mk hbefore (hvalue.retype hlone hnum) hafter

theorem Items.retype (hlone : ∀ n, D.lone n → D'.lone n) {s r : Str} {vs : List Tree}
    (h : Items D s vs r) (hnum : ∀ t ∈ itemNumbers vs, D'.number t) : Items D' s vs r := by
  match h with
  | .last hv => exact .last (hv.retype hlone fun t ht => hnum t (List.mem_append_left _ ht))
  | .more hv hs =>
      exact .more (hv.retype hlone fun t ht => hnum t (List.mem_append_left _ ht))
        (hs.retype hlone fun t ht => hnum t (List.mem_append_right _ ht))

theorem Members.retype (hlone : ∀ n, D.lone n → D'.lone n) {s r : Str} {fs : List (Str × Tree)}
    (h : Members D s fs r) (hnum : ∀ t ∈ fieldNumbers fs, D'.number t) : Members D' s fs r := by
  match h with
  | .last hbefore hk hcolon hv =>
      exact .last hbefore (hk.retype hlone) hcolon
        (hv.retype hlone fun t ht => hnum t (List.mem_append_left _ ht))
  | .more hbefore hk hcolon hv hs =>
      exact .more hbefore (hk.retype hlone) hcolon
        (hv.retype hlone fun t ht => hnum t (List.mem_append_left _ ht))
        (hs.retype hlone fun t ht => hnum t (List.mem_append_right _ ht))

end

mutual

theorem Value.numbers_mem {s r : Str} {v : Tree} (h : Value D s v r) : ∀ t ∈ v.numbers, D.number t := by
  match h with
  | .null _ | .true _ | .false _ | .string _ | .emptyArray _ | .emptyObject _ => exact nofun
  | .number ht _ => exact fun t hmem => List.mem_singleton.mp hmem ▸ ht
  | .array hitems => exact hitems.numbers_mem
  | .object hmembers => exact hmembers.numbers_mem

theorem Spaced.numbers_mem {s r : Str} {v : Tree} (h : Spaced D s v r) :
    ∀ t ∈ v.numbers, D.number t := by
  match h with
  | .mk _ hvalue _ => exact hvalue.numbers_mem

theorem Items.numbers_mem {s r : Str} {vs : List Tree} (h : Items D s vs r) :
    ∀ t ∈ itemNumbers vs, D.number t := by
  match h with
  | .last hv => exact fun t ht => hv.numbers_mem t (by simpa [itemNumbers] using ht)
  | .more hv hs => exact fun t ht => (List.mem_append.mp ht).elim (hv.numbers_mem t) (hs.numbers_mem t)

theorem Members.numbers_mem {s r : Str} {fs : List (Str × Tree)} (h : Members D s fs r) :
    ∀ t ∈ fieldNumbers fs, D.number t := by
  match h with
  | .last _ _ _ hv => exact fun t ht => hv.numbers_mem t (by simpa [fieldNumbers] using ht)
  | .more _ _ _ hv hs =>
      exact fun t ht => (List.mem_append.mp ht).elim (hv.numbers_mem t) (hs.numbers_mem t)

end

end Retype

end Devscout.Lib.JsonGrammar
