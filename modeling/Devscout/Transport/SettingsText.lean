/-
# Devscout.Transport.SettingsText -- texts of settings and what they state

A settings text spells a document: JSON in which comments stand wherever white space may and
a comma may stand behind the last entry. The grammar is given by itself, and the reader reads
every text of it as the document it spells, its arrays and scalars forgotten.
-/

import Devscout.Transport.Settings

namespace Devscout.Transport

open Lib Text

/-- What a settings text states. A scalar is a number or one of the three words. -/
inductive Doc where
  | str (s : Str)
  | scalar
  | object (members : List (Str × Doc))
  | array (elements : List Doc)

mutual

/-- What of a document the reader keeps. -/
def Doc.erase : Doc → Json
  | .str s => .str s
  | .scalar => .other
  | .object members => .object (eraseMembers members)
  | .array _ => .other

def eraseMembers : List (Str × Doc) → List (Str × Json)
  | [] => []
  | (key, d) :: members => (key, d.erase) :: eraseMembers members

end

/-! ## The grammar -/

/-- White space and comments. -/
inductive Blank : Str → Prop
  | nil : Blank []
  | space {c s} : c ∈ [' ', '\t', '\n', '\r'] → Blank s → Blank (c :: s)
  | line {body s} : '\n' ∉ body → Blank s → Blank ('/' :: '/' :: (body ++ '\n' :: s))
  | block {body s} : (∀ a b, body ≠ a ++ '*' :: '/' :: b) → Blank s →
      Blank ('/' :: '*' :: (body ++ '*' :: '/' :: s))

/-- At the end of a text a line comment needs no line feed. -/
def BlankEnd (s : Str) : Prop :=
  Blank s ∨ ∃ b body, Blank b ∧ '\n' ∉ body ∧ s = b ++ '/' :: '/' :: body

/-- Four digits of a code unit. -/
def HexUnit (unit : Nat) (s : Str) : Prop :=
  ∃ a b c d i j k l, s = [a, b, c, d] ∧ toDigit16 a = some i ∧ toDigit16 b = some j ∧
    toDigit16 c = some k ∧ toDigit16 d = some l ∧ unit = ((i * 16 + j) * 16 + k) * 16 + l

/-- The characters of a string, escapes included, and its closing quote. -/
inductive StringText : Str → Str → Prop
  | close : StringText [] ['"']
  | plain {c v t} : ¬ c < ' ' → c ≠ '"' → c ≠ '\\' → StringText v t → StringText (c :: v) (c :: t)
  | short {e c v t} : shortEscape e = some c → StringText v t → StringText (c :: v) ('\\' :: e :: t)
  | unit {n u v t} : HexUnit n u → n < 0xD800 ∨ 0xE000 ≤ n → StringText v t →
      StringText (Char.ofNat n :: v) ('\\' :: 'u' :: (u ++ t))
  | pair {hi lo u w v t} : HexUnit hi u → 0xD800 ≤ hi → hi < 0xDC00 → HexUnit lo w → 0xDC00 ≤ lo →
      lo < 0xE000 → StringText v t →
      StringText (Char.ofNat (0x10000 + (hi - 0xD800) * 0x400 + (lo - 0xDC00)) :: v)
        ('\\' :: 'u' :: (u ++ '\\' :: 'u' :: (w ++ t)))

/-- Some digits, one at least. -/
def Digits (s : Str) : Prop := s ≠ [] ∧ ∀ c ∈ s, isAsciiDigit c = true

/-- A number: no leading zeros, and digits behind a point and an exponent's letter. -/
def NumberText (s : Str) : Prop :=
  ∃ sign whole fraction exponent, s = sign ++ (whole ++ (fraction ++ exponent)) ∧
    (sign = [] ∨ sign = ['-']) ∧ Digits whole ∧ (whole.head? = some '0' → whole = ['0']) ∧
    (fraction = [] ∨ ∃ ds, Digits ds ∧ fraction = '.' :: ds) ∧
    (exponent = [] ∨ ∃ e s ds, (e = 'e' ∨ e = 'E') ∧ (s = [] ∨ s = ['+'] ∨ s = ['-']) ∧ Digits ds ∧
      exponent = e :: (s ++ ds))

def ScalarText (s : Str) : Prop :=
  s ∈ ["true".toList, "false".toList, "null".toList] ∨ NumberText s

mutual

inductive Spells : Doc → Str → Prop
  | str {v t} : StringText v t → Spells (.str v) ('"' :: t)
  | scalar {t} : ScalarText t → Spells .scalar t
  | object {members t} : SpellsMembers members t → Spells (.object members) ('\x7b' :: t)
  | array {elements t} : SpellsElements elements t → Spells (.array elements) ('[' :: t)

/-- Members up to the closing brace; the last may have a comma too. -/
inductive SpellsMembers : List (Str × Doc) → Str → Prop
  | close {b} : Blank b → SpellsMembers [] (b ++ ['\x7d'])
  | last {m t} : SpellsMember m t → SpellsMembers [m] (t ++ ['\x7d'])
  | more {m members t u} : SpellsMember m t → SpellsMembers members u →
      SpellsMembers (m :: members) (t ++ ',' :: u)

inductive SpellsMember : Str × Doc → Str → Prop
  | mk {key d t v b₁ b₂ b₃ b₄} : Blank b₁ → StringText key t → Blank b₂ → Blank b₃ → Spells d v →
      Blank b₄ → SpellsMember (key, d) (b₁ ++ '"' :: (t ++ (b₂ ++ ':' :: (b₃ ++ (v ++ b₄)))))

inductive SpellsElements : List Doc → Str → Prop
  | close {b} : Blank b → SpellsElements [] (b ++ [']'])
  | last {d v b b'} : Blank b → Spells d v → Blank b' → SpellsElements [d] (b ++ (v ++ (b' ++ [']'])))
  | more {d elements v b b' u} : Blank b → Spells d v → Blank b' → SpellsElements elements u →
      SpellsElements (d :: elements) (b ++ (v ++ (b' ++ ',' :: u)))

end

/-- The texts of settings: an object, with blanks around it and a byte order mark before it
or not. -/
def SettingsText (members : List (Str × Doc)) (text : Str) : Prop :=
  ∃ mark before t after, (mark = [] ∨ mark = [BOM]) ∧ Blank before ∧ Spells (.object members) t ∧
    BlankEnd after ∧ text = mark ++ (before ++ (t ++ after))

/-! ## Blanks -/

/-- A text on which `skip` stays where it is. -/
def Solid (s : Str) : Prop := ∀ c ∈ s.head?, isWhitespace c = false ∧ c ≠ '/'

theorem skip_solid {s : Str} (h : Solid s) : skip s = some s := by
  cases s with
  | nil => rfl
  | cons c cs =>
      obtain ⟨hspace, hslash⟩ := h c rfl
      rw [skip, skipFrom, hspace, if_neg Bool.false_ne_true, if_neg hslash]

example : skip ['/', '/', 'a', '\n', 'b'] = some ['b'] := by decide +kernel

theorem skipFrom_line {body : Str} (h : '\n' ∉ body) (s : Str) :
    skipFrom .line (body ++ '\n' :: s) = skipFrom .outside s := by
  induction body with
  | nil => rfl
  | cons c body ih =>
      have hc : c ≠ '\n' := fun heq => h (by simp [heq])
      rw [List.cons_append, skipFrom, if_neg hc]
      exact ih fun hmem => h (List.mem_cons_of_mem c hmem)

theorem skipFrom_lineEnd {body : Str} (h : '\n' ∉ body) : skipFrom .line body = some [] := by
  induction body with
  | nil => rfl
  | cons c body ih =>
      have hc : c ≠ '\n' := fun heq => h (by simp [heq])
      rw [skipFrom, if_neg hc]
      exact ih fun hmem => h (List.mem_cons_of_mem c hmem)

theorem skipFrom_block {body : Str} (h : ∀ a b, body ≠ a ++ '*' :: '/' :: b) (s : Str) {star : Bool}
    (hstar : star = true → body.head? ≠ some '/') :
    skipFrom (.block star) (body ++ '*' :: '/' :: s) = skipFrom .outside s := by
  induction body generalizing star with
  | nil => simp [skipFrom]
  | cons c body ih =>
      have hc : ¬ (star = true ∧ c = '/') := fun ⟨hs, heq⟩ => hstar hs (by rw [heq]; rfl)
      rw [List.cons_append, skipFrom, if_neg hc]
      refine ih (fun a b heq => h (c :: a) b (by rw [heq]; rfl)) fun hs hhead => ?_
      -- A star before a slash would end the comment sooner.
      have hc : c = '*' := of_decide_eq_true hs
      cases body with
      | nil => cases hhead
      | cons d body => exact h [] body (by rw [hc, Option.some.inj hhead]; rfl)

theorem skip_blank_append {b : Str} (h : Blank b) (s : Str) : skip (b ++ s) = skip s := by
  induction h with
  | nil => rfl
  | @space c b hc _ ih =>
      have hspace : isWhitespace c = true := by
        simp only [List.mem_cons, List.not_mem_nil, or_false] at hc
        rcases hc with rfl | rfl | rfl | rfl <;> decide
      rw [List.cons_append, skip, skipFrom, if_pos hspace]
      exact ih
  | @line body b hbody _ ih =>
      show skipFrom .line (body ++ '\n' :: b ++ s) = _
      rw [List.append_assoc, List.cons_append, skipFrom_line hbody]
      exact ih
  | @block body b hbody _ ih =>
      show skipFrom (.block false) (body ++ '*' :: '/' :: b ++ s) = _
      rw [List.append_assoc, List.cons_append, List.cons_append]
      have hout : (false : Bool) = true → body.head? ≠ some '/' := fun h => Bool.noConfusion h
      rw [skipFrom_block hbody _ hout]
      exact ih

theorem skip_blankEnd {b : Str} (h : BlankEnd b) : skip b = some [] := by
  rcases h with h | ⟨b, body, hb, hbody, rfl⟩
  · rw [← List.append_nil b, skip_blank_append h]
    rfl
  · rw [skip_blank_append hb]
    exact skipFrom_lineEnd hbody

/-- **Blanks are skipped** up to what is not one. -/
theorem skip_blank {b s : Str} (hb : Blank b) (hs : Solid s) : skip (b ++ s) = some s := by
  rw [skip_blank_append hb, skip_solid hs]

/-- A blank does not go on with a token. -/
theorem Blank.head {b : Str} (h : Blank b) : ∀ c ∈ b.head?, isTokenChar c = false := by
  cases h with
  | nil => exact fun c hc => nomatch hc
  | space hc _ =>
      intro c' hc'
      obtain rfl := Option.some.inj hc'
      simp only [List.mem_cons, List.not_mem_nil, or_false] at hc
      rcases hc with rfl | rfl | rfl | rfl <;> decide
  | line _ _ => intro c hc; obtain rfl := Option.some.inj hc; decide
  | block _ _ => intro c hc; obtain rfl := Option.some.inj hc; decide

/-! ## Strings -/

theorem toDigit16_lt {c : Char} {d : Nat} (h : toDigit16 c = some d) : d < 16 := by
  unfold toDigit16 at h
  split at h
  · rename_i hc
    have hle : c.toNat ≤ '9'.toNat := hc.2
    have : '9'.toNat = 57 := rfl
    cases h
    omega
  · split at h
    · rename_i hc
      have hle : c.toNat ≤ 'f'.toNat := hc.2
      have : 'f'.toNat = 102 := rfl
      cases h
      omega
    · split at h
      · rename_i hc
        have hle : c.toNat ≤ 'F'.toNat := hc.2
        have : 'F'.toNat = 70 := rfl
        cases h
        omega
      · cases h

theorem HexUnit.lt {n : Nat} {u : Str} (h : HexUnit n u) : n < 0x10000 := by
  obtain ⟨a, b, c, d, i, j, k, l, -, ha, hb, hc, hd, rfl⟩ := h
  have := toDigit16_lt ha
  have := toDigit16_lt hb
  have := toDigit16_lt hc
  have := toDigit16_lt hd
  omega

theorem hex4_append {n : Nat} {u : Str} (h : HexUnit n u) (s : Str) : hex4 (u ++ s) = some (n, s) := by
  obtain ⟨a, b, c, d, i, j, k, l, rfl, ha, hb, hc, hd, rfl⟩ := h
  simp [hex4, hex4From, ha, hb, hc, hd]

theorem fromU32_eq {n : Nat} (h : n < 0xD800 ∨ 0xE000 ≤ n) (hlt : n < 0x110000) :
    fromU32 n = some (Char.ofNat n) := by
  have hvalid : n.isValidChar := by
    rcases h with h | h
    · exact .inl h
    · exact .inr ⟨by omega, hlt⟩
  rw [fromU32, if_pos hvalid]

theorem unicodeEscape_unit {n : Nat} {u : Str} (hu : HexUnit n u) (hn : n < 0xD800 ∨ 0xE000 ≤ n)
    (s : Str) : unicodeEscape (u ++ s) = some (Char.ofNat n, s) := by
  have hlt := hu.lt
  have hout : ¬ (0xD800 ≤ n ∧ n < 0xDC00) := by omega
  rw [unicodeEscape, hex4_append hu]
  simp only [Option.bind_eq_bind, Option.bind_some, if_pos hout]
  rw [fromU32_eq hn (by omega)]
  rfl

theorem unicodeEscape_pair {hi lo : Nat} {u w : Str} (hu : HexUnit hi u) (hhi : 0xD800 ≤ hi ∧ hi < 0xDC00)
    (hw : HexUnit lo w) (hlo : 0xDC00 ≤ lo ∧ lo < 0xE000) (s : Str) :
    unicodeEscape (u ++ '\\' :: 'u' :: (w ++ s)) =
      some (Char.ofNat (0x10000 + (hi - 0xD800) * 0x400 + (lo - 0xDC00)), s) := by
  rw [unicodeEscape, hex4_append hu]
  simp only [Option.bind_eq_bind, Option.bind_some, if_neg (not_not_intro hhi)]
  rw [hex4_append hw]
  simp only [Option.bind_some, if_pos hlo]
  rw [fromU32_eq (by omega) (by omega)]
  rfl

/-- **A string is read as its characters.** -/
theorem stringFrom_text {v t : Str} (h : StringText v t) (rest : Str) {n : Nat} (hn : t.length ≤ n) :
    stringFrom n (t ++ rest) = some (v, rest) := by
  induction h generalizing n with
  | close =>
      obtain ⟨n, rfl⟩ : ∃ k, n = k + 1 := ⟨n - 1, by simp at hn; omega⟩
      rfl
  | @plain c v t hlow hquote hslash _ ih =>
      obtain ⟨n, rfl⟩ : ∃ k, n = k + 1 := ⟨n - 1, by simp at hn; omega⟩
      rw [List.cons_append, stringFrom, if_neg hquote, if_neg hslash, if_neg hlow,
        ih (by simpa using hn)]
      rfl
  | @short e c v t he _ ih =>
      obtain ⟨n, rfl⟩ : ∃ k, n = k + 1 := ⟨n - 1, by simp at hn; omega⟩
      have hu : e ≠ 'u' := fun heq => by
        rw [heq, show shortEscape 'u' = none by decide] at he
        cases he
      rw [List.cons_append, List.cons_append, stringFrom, if_neg (by decide), if_pos rfl, escape,
        if_neg hu, he]
      show (stringFrom n (t ++ rest)).bind _ = _
      rw [ih (by simp at hn; omega)]
      rfl
  | @unit k u v t hu hk _ ih =>
      obtain ⟨n, rfl⟩ : ∃ k, n = k + 1 := ⟨n - 1, by simp at hn; omega⟩
      rw [List.cons_append, List.cons_append, List.append_assoc, stringFrom, if_neg (by decide),
        if_pos rfl, escape, if_pos rfl, unicodeEscape_unit hu hk]
      show (stringFrom n (t ++ rest)).bind _ = _
      rw [ih (by simp at hn; omega)]
      rfl
  | @pair hi lo u w v t hu hhi hhi' hw hlo hlo' _ ih =>
      obtain ⟨n, rfl⟩ : ∃ k, n = k + 1 := ⟨n - 1, by simp at hn; omega⟩
      rw [List.cons_append, List.cons_append, List.append_assoc, List.cons_append, List.cons_append,
        List.append_assoc, stringFrom, if_neg (by decide), if_pos rfl, escape, if_pos rfl,
        unicodeEscape_pair hu ⟨hhi, hhi'⟩ hw ⟨hlo, hlo'⟩]
      show (stringFrom n (t ++ rest)).bind _ = _
      rw [ih (by simp at hn; omega)]
      rfl

theorem string_text {v t : Str} (h : StringText v t) (rest : Str) :
    string ('"' :: (t ++ rest)) = some (v, rest) :=
  stringFrom_text h rest (by simp; omega)

/-! ## Scalars -/

/-- What may stand behind a token. -/
def Delimited (s : Str) : Prop := ∀ c ∈ s.head?, isTokenChar c = false

theorem token_append {t rest : Str} (ht : ∀ c ∈ t, isTokenChar c = true) (hrest : Delimited rest) :
    (t ++ rest).takeWhile isTokenChar = t ∧ (t ++ rest).dropWhile isTokenChar = rest := by
  have hstop : rest.takeWhile isTokenChar = [] ∧ rest.dropWhile isTokenChar = rest := by
    cases rest with
    | nil => exact ⟨rfl, rfl⟩
    | cons c cs => simp [hrest c rfl]
  rw [List.takeWhile_append_of_pos ht, List.dropWhile_append_of_pos ht, hstop.1, hstop.2]
  exact ⟨List.append_nil t, rfl⟩

theorem digits_append {ds rest : Str} (hds : ∀ c ∈ ds, isAsciiDigit c = true)
    (hrest : ∀ c ∈ rest.head?, isAsciiDigit c = false) : digits (ds ++ rest) = (ds.length, rest) := by
  have hstop : rest.takeWhile isAsciiDigit = [] ∧ rest.dropWhile isAsciiDigit = rest := by
    cases rest with
    | nil => exact ⟨rfl, rfl⟩
    | cons c cs => simp [hrest c rfl]
  rw [digits, List.takeWhile_append_of_pos hds, List.dropWhile_append_of_pos hds, hstop.1, hstop.2,
    List.append_nil]

theorem Digits.length_ne {ds : Str} (h : Digits ds) : ds.length ≠ 0 :=
  fun hlen => h.1 (List.length_eq_zero_iff.mp hlen)

/-- A digit is neither a sign nor a point nor an exponent's letter. -/
theorem Digits.head {ds : Str} (h : Digits ds) (rest : Str) :
    ∀ c ∈ (ds ++ rest).head?, isAsciiDigit c = true := by
  obtain ⟨hne, hds⟩ := h
  cases ds with
  | nil => exact absurd rfl hne
  | cons d ds =>
      intro c hc
      obtain rfl := Option.some.inj hc
      exact hds d List.mem_cons_self

theorem stripAny_digits {signs : List Char} (hsigns : ∀ c ∈ signs, isAsciiDigit c = false) {ds : Str}
    (h : Digits ds) (rest : Str) : stripAny signs (ds ++ rest) = ds ++ rest := by
  have hhead := h.head rest
  cases hall : ds ++ rest with
  | nil => rfl
  | cons c cs =>
      rw [hall] at hhead
      have hc : c ∉ signs := fun hmem => by
        have := hsigns c hmem
        rw [hhead c rfl] at this
        cases this
      rw [stripAny, if_neg hc]

theorem exponentEnds_text {exponent : Str}
    (h : exponent = [] ∨ ∃ e s ds, (e = 'e' ∨ e = 'E') ∧ (s = [] ∨ s = ['+'] ∨ s = ['-']) ∧ Digits ds ∧
      exponent = e :: (s ++ ds)) : exponentEnds exponent = true := by
  rcases h with rfl | ⟨e, s, ds, he, hs, hds, rfl⟩
  · rfl
  · have hstrip : stripAny ['+', '-'] (s ++ ds) = ds := by
      rcases hs with rfl | rfl | rfl
      · have hself : stripAny ['+', '-'] (ds ++ []) = ds ++ [] := stripAny_digits (by simp [isAsciiDigit]) hds []
        rwa [List.append_nil] at hself
      · rfl
      · rfl
    have hdigits : digits (ds ++ []) = (ds.length, []) := digits_append hds.2 fun c hc => nomatch hc
    rw [List.append_nil] at hdigits
    rw [exponentEnds, if_pos he, hstrip, hdigits]
    simp [hds.length_ne]

theorem exponent_head {exponent : Str}
    (h : exponent = [] ∨ ∃ e s ds, (e = 'e' ∨ e = 'E') ∧ (s = [] ∨ s = ['+'] ∨ s = ['-']) ∧ Digits ds ∧
      exponent = e :: (s ++ ds)) : ∀ c ∈ exponent.head?, isAsciiDigit c = false ∧ c ≠ '.' := by
  rcases h with rfl | ⟨e, s, ds, he, -, -, rfl⟩
  · exact fun c hc => nomatch hc
  · intro c hc
    obtain rfl := Option.some.inj hc
    rcases he with rfl | rfl <;> decide

/-- **A number is a number to the reader.** -/
theorem isNumber_text {t : Str} (h : NumberText t) : isNumber t = true := by
  obtain ⟨sign, whole, fraction, exponent, rfl, hsign, hwhole, hzero, hfraction, hexponent⟩ := h
  have hstrip : stripAny ['-'] (sign ++ (whole ++ (fraction ++ exponent))) =
      whole ++ (fraction ++ exponent) := by
    rcases hsign with rfl | rfl
    · exact stripAny_digits (by simp [isAsciiDigit]) hwhole _
    · rfl
  have hrest : ∀ c ∈ (fraction ++ exponent).head?, isAsciiDigit c = false := by
    rcases hfraction with rfl | ⟨ds, -, rfl⟩
    · exact fun c hc => (exponent_head hexponent c hc).1
    · intro c hc
      obtain rfl := Option.some.inj hc
      decide
  have hlead : ¬ (1 < whole.length ∧
      ((sign ++ (whole ++ (fraction ++ exponent))).dropWhile (· = '-')).head? = some '0') := by
    rintro ⟨hlen, hhead⟩
    have hminus : ((sign ++ (whole ++ (fraction ++ exponent))).dropWhile (· = '-')) =
        whole ++ (fraction ++ exponent) := by
      obtain ⟨hne, hds⟩ := hwhole
      cases whole with
      | nil => exact absurd rfl hne
      | cons d ds =>
          have hd : d ≠ '-' := fun heq => by
            have := hds d List.mem_cons_self
            rw [heq] at this
            exact absurd this (by decide)
          rcases hsign with rfl | rfl <;> simp [hd]
    rw [hminus] at hhead
    cases whole with
    | nil => exact absurd rfl hwhole.1
    | cons d ds =>
        rw [hzero hhead] at hlen
        exact absurd hlen (by decide)
  rw [isNumber, hstrip, digits_append hwhole.2 hrest]
  show (if _ then false else _) = true
  rw [if_neg (by rintro (h | h); exacts [hwhole.length_ne h, hlead h])]
  rcases hfraction with rfl | ⟨ds, hds, rfl⟩
  · rw [List.nil_append]
    have hends := exponentEnds_text hexponent
    have hhead := exponent_head hexponent
    cases exponent with
    | nil => rfl
    | cons c cs =>
        have hc := (hhead c rfl).2
        split
        · rename_i heq
          exact absurd (List.cons.inj heq).1 hc
        · exact hends
  · show (decide ((digits (ds ++ exponent)).1 ≠ 0) && exponentEnds (digits (ds ++ exponent)).2) = true
    rw [digits_append hds.2 fun c hc => (exponent_head hexponent c hc).1]
    simp [hds.length_ne, exponentEnds_text hexponent]

theorem isTokenChar_of_digit {c : Char} (h : isAsciiDigit c = true) : isTokenChar c = true := by
  simp [isTokenChar, h]

theorem token_of_scalar {t : Str} (h : ScalarText t) : t ≠ [] ∧ ∀ c ∈ t, isTokenChar c = true := by
  rcases h with h | ⟨sign, whole, fraction, exponent, rfl, hsign, hwhole, -, hfraction, hexponent⟩
  · simp only [List.mem_cons, List.not_mem_nil, or_false] at h
    rcases h with rfl | rfl | rfl <;> exact ⟨by decide, List.all_eq_true.mp (by decide)⟩
  · refine ⟨fun hnil => hwhole.1 (by simp at hnil; exact hnil.2.1), fun c hc => ?_⟩
    simp only [List.mem_append] at hc
    rcases hc with hc | hc | hc | hc
    · rcases hsign with rfl | rfl
      · cases hc
      · rw [List.mem_singleton.mp hc]
        decide
    · exact isTokenChar_of_digit (hwhole.2 c hc)
    · rcases hfraction with rfl | ⟨ds, hds, rfl⟩
      · cases hc
      · rcases List.mem_cons.mp hc with rfl | hc
        · decide
        · exact isTokenChar_of_digit (hds.2 c hc)
    · rcases hexponent with rfl | ⟨e, s, ds, he, hs, hds, rfl⟩
      · cases hc
      · rcases List.mem_cons.mp hc with rfl | hc
        · rcases he with rfl | rfl <;> decide
        · rcases List.mem_append.mp hc with hc | hc
          · rcases hs with rfl | rfl | rfl
            · cases hc
            · rw [List.mem_singleton.mp hc]; decide
            · rw [List.mem_singleton.mp hc]; decide
          · exact isTokenChar_of_digit (hds.2 c hc)

theorem scalar_text {t rest : Str} (h : ScalarText t) (hrest : Delimited rest) :
    scalar (t ++ rest) = some (.other, rest) := by
  obtain ⟨htake, hdrop⟩ := token_append (token_of_scalar h).2 hrest
  unfold scalar
  rw [htake, hdrop]
  exact if_pos (h.imp id isNumber_text)

/-! ## Values -/

theorem Spells.solid {d : Doc} {t : Str} (h : Spells d t) (rest : Str) : Solid (t ++ rest) := by
  cases h with
  | str _ => intro c hc; obtain rfl := Option.some.inj hc; decide
  | object _ => intro c hc; obtain rfl := Option.some.inj hc; decide
  | array _ => intro c hc; obtain rfl := Option.some.inj hc; decide
  | scalar ht =>
      obtain ⟨hne, htoken⟩ := token_of_scalar ht
      cases t with
      | nil => exact absurd rfl hne
      | cons c t =>
          intro c' hc'
          obtain rfl := Option.some.inj hc'
          have hc := htoken c List.mem_cons_self
          refine ⟨?_, fun heq => by rw [heq] at hc; exact absurd hc (by decide)⟩
          -- The white space characters are no token characters.
          by_contra hspace
          rw [Bool.not_eq_false] at hspace
          have hle : c.toNat ≤ 122 ∧ 43 ≤ c.toNat := by
            simp only [isTokenChar, isAsciiDigit, Bool.or_eq_true, Bool.and_eq_true, decide_eq_true_eq,
              List.mem_cons, List.not_mem_nil, or_false] at hc
            have hnat : ∀ a b : Char, a ≤ b → a.toNat ≤ b.toNat := fun a b h => h
            rcases hc with ((⟨hlo, hhi⟩ | ⟨hlo, hhi⟩) | ⟨hlo, hhi⟩) | rfl | rfl | rfl
            · have := hnat _ _ hlo; have := hnat _ _ hhi
              have : '0'.toNat = 48 := rfl; have : '9'.toNat = 57 := rfl
              omega
            · have := hnat _ _ hlo; have := hnat _ _ hhi
              have : 'a'.toNat = 97 := rfl; have : 'z'.toNat = 122 := rfl
              omega
            · have := hnat _ _ hlo; have := hnat _ _ hhi
              have : 'A'.toNat = 65 := rfl; have : 'Z'.toNat = 90 := rfl
              omega
            · decide
            · decide
            · decide
          simp only [isWhitespace, Bool.or_eq_true, Bool.and_eq_true, decide_eq_true_eq, List.mem_cons,
            List.not_mem_nil, or_false] at hspace
          omega

theorem Blank.delimited {b : Str} (h : Blank b) {c : Char} (hc : isTokenChar c = false) (rest : Str) :
    Delimited (b ++ c :: rest) := by
  intro d hd
  cases b with
  | nil => obtain rfl := Option.some.inj hd; exact hc
  | cons e b => exact h.head d hd

theorem solid_cons {c : Char} (h : isWhitespace c = false ∧ c ≠ '/') (s : Str) : Solid (c :: s) := by
  intro d hd
  obtain rfl := Option.some.inj hd
  exact h

theorem value_scalar {t rest b : Str} (h : ScalarText t) (hrest : Delimited rest) (hb : Blank b) (n : Nat) :
    value (n + 1) (b ++ (t ++ rest)) = some (.other, rest) := by
  obtain ⟨hne, htoken⟩ := token_of_scalar h
  rw [value, skip_blank hb ((Spells.scalar h).solid rest), ← scalar_text h hrest, Option.bind_some]
  cases t with
  | nil => exact absurd rfl hne
  | cons c t =>
      have hc := htoken c List.mem_cons_self
      -- A token does not begin like an object, an array or a string.
      split
      · rename_i heq; cases heq
      · rename_i heq; obtain rfl := (List.cons.inj heq).1; exact absurd hc (by decide)
      · rename_i heq; obtain rfl := (List.cons.inj heq).1; exact absurd hc (by decide)
      · rename_i heq; obtain rfl := (List.cons.inj heq).1; exact absurd hc (by decide)
      · rfl

/-- What may follow a value: a comma or a closing bracket. -/
def Follows (c : Char) : Prop := c = ',' ∨ c = '\x7d' ∨ c = ']'

theorem Follows.solid {c : Char} (h : Follows c) (rest : Str) : Solid (c :: rest) := by
  rcases h with rfl | rfl | rfl <;> exact solid_cons (by decide) rest

theorem Follows.delimited {c : Char} (h : Follows c) {b : Str} (hb : Blank b) (rest : Str) :
    Delimited (b ++ c :: rest) := by
  rcases h with rfl | rfl | rfl <;> exact hb.delimited (by decide) rest

mutual

/-- **A value is read as what it spells.** -/
theorem value_spells {d : Doc} {t : Str} (h : Spells d t) {n : Nat} (hn : t.length < n) {b rest : Str}
    (hb : Blank b) (hrest : Delimited rest) : value n (b ++ (t ++ rest)) = some (d.erase, rest) := by
  obtain ⟨n, rfl⟩ : ∃ k, n = k + 1 := ⟨n - 1, by omega⟩
  have hskip := skip_blank hb (h.solid rest)
  match h with
  | .scalar ht => exact value_scalar ht hrest hb n
  | .str ht =>
      rw [value, hskip]
      show (string ('"' :: (_ ++ rest))).map _ = _
      rw [string_text ht]
      rfl
  | .object hms =>
      rw [value, hskip]
      show (entries n (_ ++ rest)).map _ = _
      rw [entries_spells hms (by simpa using hn) rest]
      rfl
  | .array hes =>
      rw [value, hskip]
      show (items n (_ ++ rest)).map _ = _
      rw [items_spells hes (by simpa using hn) rest]
      rfl
termination_by (n, 0)

theorem entries_spells {members : List (Str × Doc)} {t : Str} (h : SpellsMembers members t) {n : Nat}
    (hn : t.length < n) (rest : Str) : entries n (t ++ rest) = some (eraseMembers members, rest) := by
  obtain ⟨n, rfl⟩ : ∃ k, n = k + 1 := ⟨n - 1, by omega⟩
  match h with
  | @SpellsMembers.close b hb =>
      have hskip : skip (b ++ '\x7d' :: rest) = _ := skip_blank hb (solid_cons (by decide) rest)
      rw [List.append_assoc]
      show entries (n + 1) (b ++ '\x7d' :: rest) = _
      rw [entries, hskip]
      rfl
  | @SpellsMembers.last m t hm =>
      obtain ⟨s, hskip, hopen, hread⟩ := entry_spells hm (by simp at hn; omega : t.length < n)
        (.inr (.inl rfl)) rest
      rw [List.append_assoc]
      show entries (n + 1) (t ++ '\x7d' :: rest) = _
      rw [entries, hskip, Option.bind_some, if_neg hopen, hread]
      rfl
  | @SpellsMembers.more m members t u hm hms =>
      obtain ⟨s, hskip, hopen, hread⟩ := entry_spells hm (by simp at hn; omega : t.length < n)
        (.inl rfl) (u ++ rest)
      rw [List.append_assoc]
      show entries (n + 1) (t ++ ',' :: (u ++ rest)) = _
      rw [entries, hskip, Option.bind_some, if_neg hopen, hread]
      show (entries n (u ++ rest)).map _ = _
      rw [entries_spells hms (by simp at hn; omega) rest]
      rfl
termination_by (n, 0)

theorem entry_spells {m : Str × Doc} {t : Str} (h : SpellsMember m t) {n : Nat} (hn : t.length < n)
    {c : Char} (hc : Follows c) (rest : Str) : ∃ s, skip (t ++ c :: rest) = some s ∧
      ¬ s.head? = some '\x7d' ∧ entry (value n) s = some ((m.1, m.2.erase), c :: rest) := by
  match h with
  | @SpellsMember.mk key d t v b₁ b₂ b₃ b₄ hb₁ hkey hb₂ hb₃ hv hb₄ =>
      have hvalue := value_spells hv (by simp at hn; omega : v.length < n) hb₃ (hc.delimited hb₄ rest)
      refine ⟨'"' :: (t ++ (b₂ ++ ':' :: (b₃ ++ (v ++ (b₄ ++ c :: rest))))), ?_, by simp, ?_⟩
      · have hsolid : Solid ('"' :: (t ++ (b₂ ++ ':' :: (b₃ ++ (v ++ (b₄ ++ c :: rest)))))) :=
          solid_cons (by decide) _
        rw [← skip_blank hb₁ hsolid]
        simp
      · have hcolon : Solid (':' :: (b₃ ++ (v ++ (b₄ ++ c :: rest)))) := solid_cons (by decide) _
        rw [entry, string_text hkey]
        simp only [Option.bind_eq_bind, Option.bind_some, skip_blank hb₂ hcolon, expect, if_true, hvalue,
          skip_blank hb₄ (hc.solid rest)]
termination_by (n, 1)

theorem items_spells {elements : List Doc} {t : Str} (h : SpellsElements elements t) {n : Nat}
    (hn : t.length < n) (rest : Str) : items n (t ++ rest) = some rest := by
  obtain ⟨n, rfl⟩ : ∃ k, n = k + 1 := ⟨n - 1, by omega⟩
  match h with
  | @SpellsElements.close b hb =>
      have hskip : skip (b ++ ']' :: rest) = _ := skip_blank hb (solid_cons (by decide) rest)
      rw [List.append_assoc]
      show items (n + 1) (b ++ ']' :: rest) = _
      rw [items, hskip]
      rfl
  | @SpellsElements.last d v b b' hb hv hb' =>
      have hitem := item_spells hv (by simp at hn; omega : v.length < n) hb' (.inr (.inr rfl)) rest
      rw [show b ++ (v ++ (b' ++ [']'])) ++ rest = b ++ (v ++ (b' ++ ']' :: rest)) by simp, items,
        skip_blank hb (hv.solid _), Option.bind_some, if_neg hitem.1, hitem.2]
      rfl
  | @SpellsElements.more d elements v b b' u hb hv hb' hes =>
      have hitem := item_spells hv (by simp at hn; omega : v.length < n) hb' (.inl rfl) (u ++ rest)
      rw [show b ++ (v ++ (b' ++ ',' :: u)) ++ rest = b ++ (v ++ (b' ++ ',' :: (u ++ rest))) by simp,
        items, skip_blank hb (hv.solid _), Option.bind_some, if_neg hitem.1, hitem.2]
      exact items_spells hes (by simp at hn; omega) rest
termination_by (n, 0)

theorem item_spells {d : Doc} {v b : Str} (h : Spells d v) {n : Nat} (hn : v.length < n) (hb : Blank b)
    {c : Char} (hc : Follows c) (rest : Str) :
    ¬ (v ++ (b ++ c :: rest)).head? = some ']' ∧
      item (value n) (v ++ (b ++ c :: rest)) = some (c :: rest) := by
  have hvalue : value n ([] ++ (v ++ (b ++ c :: rest))) = _ :=
    value_spells h hn .nil (hc.delimited hb rest)
  refine ⟨?_, ?_⟩
  · match h with
    | .str _ => simp
    | .object _ => simp
    | .array _ => simp
    | .scalar ht =>
        obtain ⟨hne, htoken⟩ := token_of_scalar ht
        intro hhead
        cases v with
        | nil => exact hne rfl
        | cons e v =>
            have he := htoken e List.mem_cons_self
            rw [show e = ']' from Option.some.inj hhead] at he
            exact absurd he (by decide)
  · rw [List.nil_append] at hvalue
    rw [item, hvalue]
    exact skip_blank hb (hc.solid rest)
termination_by (n, 1)

end

/-- **The reader reads a settings text** as the document it states. -/
theorem parse_settingsText {members : List (Str × Doc)} {text : Str} (h : SettingsText members text) :
    parse text = some (.object (eraseMembers members)) := by
  obtain ⟨mark, before, t, after, hmark, hbefore, ht, hafter, rfl⟩ := h
  have hstrip : stripAny [BOM] (mark ++ (before ++ (t ++ after))) = before ++ (t ++ after) := by
    rcases hmark with rfl | rfl
    · -- Neither a blank nor an object begins with a byte order mark.
      have hhead : ∀ c ∈ (before ++ (t ++ after)).head?, c ∉ [BOM] := by
        intro c hc hmem
        rw [List.mem_singleton] at hmem
        subst hmem
        cases before with
        | nil => cases ht; exact absurd (Option.some.inj hc) (by decide)
        | cons e before =>
            obtain rfl := Option.some.inj hc
            cases hbefore with
            | space hmem _ => exact absurd hmem (by decide)
      cases hall : before ++ (t ++ after) with
      | nil => rfl
      | cons c s =>
          rw [hall] at hhead
          exact if_neg (hhead c rfl)
    · rfl
  have hdelimited : Delimited after := by
    rcases hafter with h | ⟨b, body, hb, -, rfl⟩
    · exact h.head
    · exact hb.delimited (by decide) _
  have hvalue := value_spells ht (by simp; omega : t.length < (before ++ (t ++ after)).length + 1)
    hbefore hdelimited
  rw [parse]
  simp only [hstrip, hvalue, Option.bind_eq_bind, Option.bind_some, skip_blankEnd hafter, if_true]
  rfl

end Devscout.Transport
