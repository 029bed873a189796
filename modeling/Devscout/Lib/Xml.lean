/-
# Devscout.Lib.Xml -- the pieces of an XML text, and looking for words in it

An XML text is a sequence of items: character data, comments, sections, instructions,
declarations and tags. The types here hold any sequence whose items have the right shape, with
all the freedom that XML leaves about white space and quotes. That tags match is not asked,
since nothing here needs it: what holds of every such sequence holds of the documents.

Programs that do not parse look for words in the text instead. What they find is in the items
only if the word cannot begin anywhere else; `firstIn_append` and `firstWord_skip` are the rules
for that, and `firstWord_attrs` is what they give for an attribute looked for by its name.
-/

import Devscout.Lib.Text

namespace Devscout.Lib.Xml

open Text

/-! ## Looking for a word -/

section Words

variable {β : Type}

/-- What stands before the first place of a word, and what stands after it. -/
def firstIn (word : Str) : Str → Option (Str × Str)
  | [] => if word = [] then some ([], []) else none
  | c :: cs =>
      if word.isPrefixOf (c :: cs) then some ([], (c :: cs).drop word.length)
      else (firstIn word cs).map fun r => (c :: r.1, r.2)

/-- The first place of a word at which `read` makes something of the character before it and of
the text after it. -/
def firstWord (word : Str) (read : Option Char → Str → Option β) : Option Char → Str → Option β
  | _, [] => none
  | before, c :: cs =>
      (if word.isPrefixOf (c :: cs) then read before ((c :: cs).drop word.length) else none).or
        (firstWord word read (some c) cs)

variable {word a b x y : Str} {c : Char} {read : Option Char → Str → Option β} {before : Option Char}

/-- No place of the word begins in a text, whatever follows it. -/
def Clear (word a : Str) : Prop := ∀ x c y b, a = x ++ c :: y → ¬word <+: c :: y ++ b

theorem firstIn_cons_of_not (h : ¬word <+: c :: a) :
    firstIn word (c :: a) = (firstIn word a).map fun r => (c :: r.1, r.2) := by
  rw [firstIn, if_neg (by rwa [List.isPrefixOf_iff_prefix])]

theorem firstIn_self (hword : word ≠ []) (b : Str) : firstIn word (word ++ b) = some ([], b) := by
  obtain ⟨c, w, rfl⟩ := List.exists_cons_of_ne_nil hword
  rw [List.cons_append, firstIn, if_pos, ← List.cons_append, List.drop_left]
  rw [List.isPrefixOf_iff_prefix, ← List.cons_append]
  exact List.prefix_append _ b

/-- Where no place of the word begins in `a`, it is looked for in the rest. -/
theorem firstIn_append (h : ∀ x c y, a = x ++ c :: y → ¬word <+: c :: y ++ b) :
    firstIn word (a ++ b) = (firstIn word b).map fun r => (a ++ r.1, r.2) := by
  induction a with
  | nil => exact (Option.map_id' ..).symm
  | cons c a ih =>
      have hrest : ∀ x d y, a = x ++ d :: y → ¬word <+: d :: y ++ b := fun x d y hxy =>
        h (c :: x) d y (by rw [hxy]; rfl)
      have hhere : ¬word <+: c :: (a ++ b) := h [] c a rfl
      rw [List.cons_append, firstIn_cons_of_not hhere, ih hrest, Option.map_map]
      rfl

theorem firstIn_clear (h : Clear word a) (b : Str) :
    firstIn word (a ++ b) = (firstIn word b).map fun r => (a ++ r.1, r.2) :=
  firstIn_append fun x c y hxy => h x c y b hxy

theorem firstIn_eq_some (h : firstIn word a = some (x, y)) : a = x ++ word ++ y := by
  induction a generalizing x with
  | nil =>
      rw [firstIn] at h
      split at h
      · rename_i hword
        obtain ⟨rfl, rfl⟩ := Prod.mk.inj (Option.some.inj h)
        rw [hword]
        rfl
      · cases h
  | cons c a ih =>
      rw [firstIn] at h
      split at h
      · rename_i hpre
        obtain ⟨rfl, rfl⟩ := Prod.mk.inj (Option.some.inj h)
        rw [List.isPrefixOf_iff_prefix] at hpre
        exact (List.prefix_iff_eq_append.mp hpre).symm
      · obtain ⟨r, hr, heq⟩ := Option.map_eq_some_iff.mp h
        obtain ⟨rfl, rfl⟩ := Prod.mk.inj heq
        rw [List.cons_append, List.cons_append, ← ih hr]

/-- Nor does the word begin in the text before its first place. -/
theorem firstIn_first (h : firstIn word a = some (x, y)) {u v : Str} {d : Char}
    (hx : x = u ++ d :: v) : ¬word <+: d :: v ++ word ++ y := by
  induction a generalizing x u with
  | nil =>
      rw [firstIn] at h
      split at h
      · obtain ⟨rfl, rfl⟩ := Prod.mk.inj (Option.some.inj h)
        cases u <;> cases hx
      · cases h
  | cons c a ih =>
      rw [firstIn] at h
      split at h
      · obtain ⟨rfl, rfl⟩ := Prod.mk.inj (Option.some.inj h)
        cases u <;> cases hx
      · rename_i hpre
        obtain ⟨r, hr, heq⟩ := Option.map_eq_some_iff.mp h
        obtain ⟨rfl, rfl⟩ := Prod.mk.inj heq
        cases u with
        | nil =>
            obtain ⟨rfl, rfl⟩ := List.cons.inj hx
            rw [List.isPrefixOf_iff_prefix, firstIn_eq_some hr] at hpre
            exact hpre
        | cons e u =>
            exact ih hr (List.cons.inj hx).2

theorem firstIn_eq_none (h : firstIn word a = none) {u v : Str} {d : Char} (ha : a = u ++ d :: v) :
    ¬word <+: d :: v := by
  induction a generalizing u with
  | nil => cases u <;> cases ha
  | cons c a ih =>
      rw [firstIn] at h
      split at h
      · cases h
      · rename_i hpre
        cases u with
        | nil =>
            obtain ⟨rfl, rfl⟩ := List.cons.inj ha
            rwa [List.isPrefixOf_iff_prefix] at hpre
        | cons e u =>
            exact ih (Option.map_eq_none_iff.mp h) (List.cons.inj ha).2

/-- A text without the first character of a word is clear of it. -/
theorem clear_of_not_mem {d : Char} {w : Str} (hd : d ∉ a) : Clear (d :: w) a := by
  intro x c y b hxy hpre
  obtain ⟨hdc, -⟩ := List.cons_prefix_cons.mp hpre
  subst hdc
  exact hd (by rw [hxy]; exact List.mem_append_right x List.mem_cons_self)

/-- One such character in front does no harm, when what follows it is not the word. -/
theorem clear_cons {d e : Char} {w : Str} (hd : d ∉ a) (hw : ∀ b, ¬e :: w <+: a ++ b) :
    Clear (d :: e :: w) (d :: a) := by
  intro x c y b hxy hpre
  cases x with
  | nil =>
      obtain ⟨rfl, rfl⟩ := List.cons.inj hxy
      exact hw b (List.cons_prefix_cons.mp hpre).2
  | cons f x =>
      obtain ⟨-, ha⟩ := List.cons.inj hxy
      exact clear_of_not_mem hd x c y b ha hpre

theorem clear_append (ha : Clear word a) (hb : Clear word b) : Clear word (a ++ b) := by
  intro x c y r hxy hpre
  rcases List.append_eq_append_iff.mp hxy with ⟨z, rfl, hz⟩ | ⟨z, rfl, hz⟩
  · exact hb z c y r hz hpre
  · cases z with
    | nil => exact hb [] c y r hz.symm hpre
    | cons d z =>
        obtain ⟨rfl, rfl⟩ := List.cons.inj hz
        exact ha x c z (b ++ r) rfl (by rwa [List.cons_append, ← List.append_assoc])

/-- Where `read` makes nothing of any place of the word that begins in `a`, the search goes on in
the rest. -/
theorem firstWord_skip (h : ∀ x c y, a = x ++ c :: y → word <+: c :: y ++ b →
      read (x.getLast?.or before) ((c :: y ++ b).drop word.length) = none) :
    firstWord word read before (a ++ b) = firstWord word read (a.getLast?.or before) b := by
  induction a generalizing before with
  | nil => rfl
  | cons c a ih =>
      have hhere : (if word.isPrefixOf (c :: (a ++ b)) then read before ((c :: (a ++ b)).drop word.length)
          else none) = none := by
        split
        · rename_i hpre
          exact h [] c a rfl (List.isPrefixOf_iff_prefix.mp hpre)
        · rfl
      have hlast : ∀ x : Str, (c :: x).getLast?.or before = x.getLast?.or (some c) := by
        intro x
        cases x with
        | nil => rfl
        | cons d x => rw [List.getLast?_cons_cons, List.getLast?_cons]; rfl
      rw [List.cons_append, firstWord, hhere, Option.none_or, hlast]
      refine ih fun x d y hxy hpre => ?_
      rw [← hlast]
      exact h (c :: x) d y (by rw [hxy]; rfl) hpre

/-- Looking for the places of a word one after the other is looking for the first one that can be
read, when no place of the word begins inside another. -/
theorem firstWord_eq {d : Char} {w : Str} (hd : d ∉ w) (hword : word = d :: w) :
    firstWord word read before a =
      match firstIn word a with
      | none => none
      | some (x, y) => (read (x.getLast?.or before) y).or (firstWord word read word.getLast? y) := by
  subst hword
  cases hfirst : firstIn (d :: w) a with
  | none =>
      have hskip := @firstWord_skip β (d :: w) a [] read before fun x c y hxy hpre => by
        rw [List.append_nil] at hpre
        exact absurd hpre (firstIn_eq_none hfirst hxy)
      rwa [List.append_nil] at hskip
  | some r =>
      obtain ⟨x, y⟩ := r
      obtain rfl := firstIn_eq_some hfirst
      rw [List.append_assoc, firstWord_skip fun u c v huv hpre => ?_]
      · have hinside := @firstWord_skip β (d :: w) w y read (some d) fun u c v huv hpre => by
          obtain ⟨hdc, -⟩ := List.cons_prefix_cons.mp hpre
          subst hdc
          exact absurd (by rw [huv]; exact List.mem_append_right u List.mem_cons_self) hd
        have hlast : w.getLast?.or (some d) = (d :: w).getLast? := by
          rw [List.getLast?_cons]
          cases w.getLast? <;> rfl
        rw [List.cons_append, firstWord, hinside, hlast, if_pos]
        · rw [← List.cons_append, List.drop_left]
        · rw [List.isPrefixOf_iff_prefix, ← List.cons_append]
          exact List.prefix_append _ y
      · rw [← List.append_assoc] at hpre
        exact absurd hpre (firstIn_first hfirst huv)

end Words

/-! ## Items -/

/-- White space as XML has it. -/
def isSpace (c : Char) : Bool := c = ' ' || c = '\t' || c = '\n' || c = '\r'

def isQuote (c : Char) : Bool := c = '"' || c = '\''

/-- A character of a name; XML allows fewer, and one more: the Ogham space mark, which Unicode
counts as white space. -/
def isNameChar (c : Char) : Bool := !isWhitespace c && !"<>/='\"!?".toList.contains c

/-- An attribute as it is written, with the white space in it. -/
structure Attr where
  lead : Str
  name : Str
  before : Str
  after : Str
  quote : Char
  value : Str
  lead_ne : lead ≠ []
  lead_space : lead.all isSpace = true
  name_ne : name ≠ []
  name_ok : name.all isNameChar = true
  before_space : before.all isSpace = true
  after_space : after.all isSpace = true
  quote_ok : isQuote quote = true
  value_ok : value.all (fun c => c != quote && c != '<') = true

/-- What follows the white space before an attribute. -/
def Attr.core (a : Attr) : Str :=
  a.name ++ (a.before ++ '=' :: (a.after ++ a.quote :: (a.value ++ [a.quote])))

def Attr.text (a : Attr) : Str := a.lead ++ a.core

/-- A start tag, or one that is its own end. -/
structure Tag where
  name : Str
  attrs : List Attr
  trail : Str
  closed : Bool
  name_ne : name ≠ []
  name_ok : name.all isNameChar = true
  trail_space : trail.all isSpace = true

namespace Tag

def attrsText (t : Tag) : Str := t.attrs.flatMap Attr.text

def text (t : Tag) : Str := t.name ++ (t.attrsText ++ (t.trail ++ if t.closed then ['/'] else []))

/-- The value of the attribute of a name, as it is written. -/
def attr (t : Tag) (name : Str) : Option Str := (t.attrs.find? fun a => a.name = name).map Attr.value

end Tag

/-- A part of a declaration. -/
inductive Piece where
  | plain (s : Str) (hs : s.all (fun c => !isQuote c && c != '<' && c != '>') = true)
  | quoted (quote : Char) (s : Str) (hquote : isQuote quote = true)
      (hs : s.all (fun c => c != quote && c != '<') = true)

def Piece.text : Piece → Str
  | .plain s _ => s
  | .quoted quote s _ _ => quote :: (s ++ [quote])

/-- The XML declaration, or that of a document type without declarations of its own. -/
structure Declaration where
  mark : Char
  word : Str
  pieces : List Piece
  mark_ok : mark = '!' ∨ mark = '?'
  word_ne : word ≠ []
  word_ok : word.all isNameChar = true
  word_head : word.head? ≠ some '-'

def Declaration.text (d : Declaration) : Str := d.mark :: (d.word ++ d.pieces.flatMap Piece.text)

/-- An end tag. -/
structure EndTag where
  name : Str
  trail : Str
  name_ne : name ≠ []
  name_ok : name.all isNameChar = true
  trail_space : trail.all isSpace = true

def EndTag.text (t : EndTag) : Str := '/' :: (t.name ++ t.trail)

def commentOpen : Str := ['<', '!', '-', '-']

def commentClose : Str := ['-', '-', '>']

/-- What may stand in a comment. -/
structure CommentText (s : Str) : Prop where
  noHyphens : ¬['-', '-'] <:+: s
  last : s.getLast? ≠ some '-'

inductive Item where
  | chars (s : Str) (hs : '<' ∉ s)
  | comment (s : Str) (hs : CommentText s)
  | cdata (s : Str) (hs : ¬"]]>".toList <:+: s)
  | instruction (s : Str) (hs : ¬"?>".toList <:+: s)
  | declaration (d : Declaration)
  | start (t : Tag)
  | stop (t : EndTag)

def Item.text : Item → Str
  | .chars s _ => s
  | .comment s _ => commentOpen ++ (s ++ commentClose)
  | .cdata s _ => "<![CDATA[".toList ++ (s ++ "]]>".toList)
  | .instruction s _ => "<?".toList ++ (s ++ "?>".toList)
  | .declaration d => '<' :: (d.text ++ ['>'])
  | .start t => '<' :: (t.text ++ ['>'])
  | .stop t => '<' :: (t.text ++ ['>'])

/-- The text of a sequence of items. -/
def render (doc : List Item) : Str := doc.flatMap Item.text

/-- The start tags, in the order of the text. -/
def starts (doc : List Item) : List Tag :=
  doc.filterMap fun
    | .start t => some t
    | _ => none

/-- The characters of an element that holds nothing but characters and comments, from behind its
start tag. -/
def charsUntil (name : Str) : Str → List Item → Option Str
  | read, .chars s _ :: rest => charsUntil name (read ++ s) rest
  | read, .comment _ _ :: rest => charsUntil name read rest
  | read, .stop t :: _ => if t.name = name then some read else none
  | _, _ => none

/-- What the elements of a name hold that hold only characters and comments. -/
def elementTexts (name : Str) : List Item → List Str
  | [] => []
  | .start t :: rest =>
      if t.name = name ∧ t.closed = false then (charsUntil name [] rest).toList ++ elementTexts name rest
      else elementTexts name rest
  | _ :: rest => elementTexts name rest

/-- One reference, from behind its ampersand. -/
def refChar (name : Str) : Option Char :=
  let digits (base : Nat) (s : Str) : Nat := s.foldl (fun n c => n * base + (c.toLower.toNat - if c.isDigit then 48 else 87)) 0
  match name with
  | '#' :: 'x' :: s => some (Char.ofNat (digits 16 s))
  | '#' :: s => some (Char.ofNat (digits 10 s))
  | _ =>
      ([("lt", '<'), ("gt", '>'), ("amp", '&'), ("quot", '"'), ("apos", '\'')].find? fun e =>
        e.1.toList = name).map Prod.snd

/-- A text with its references replaced; the fuel is more than it is long. -/
def unescapeFrom : Nat → Str → Str
  | 0, _ => []
  | _, [] => []
  | fuel + 1, c :: cs =>
      match if c = '&' ∧ ';' ∈ cs then refChar (cs.takeWhile (· != ';')) else none with
      | some d => d :: unescapeFrom fuel ((cs.dropWhile (· != ';')).drop 1)
      | none => c :: unescapeFrom fuel cs

def unescape (s : Str) : Str := unescapeFrom (s.length + 1) s

example : unescape "a&amp;b &#65;&#x4a;&unknown;".toList = "a&b AJ&unknown;".toList := by decide +kernel

section Shapes

variable {c : Char} {s : Str}

theorem isWhitespace_of_isSpace (h : isSpace c = true) : isWhitespace c = true := by
  simp only [isSpace, Bool.or_eq_true, decide_eq_true_eq] at h
  rcases h with ((rfl | rfl) | rfl) | rfl <;> decide

theorem isWhitespace_of_isNameChar (h : isNameChar c = true) : isWhitespace c = false := by
  rw [isNameChar, Bool.and_eq_true, Bool.not_eq_true'] at h
  exact h.1

/-- A name has none of the characters that delimit it. -/
theorem not_mem_name (hs : s.all isNameChar = true) (hc : isNameChar c = false) : c ∉ s := by
  intro hmem
  rw [List.all_eq_true.mp hs c hmem] at hc
  cases hc

theorem not_mem_space (hs : s.all isSpace = true) (hc : isWhitespace c = false) : c ∉ s := by
  intro hmem
  rw [isWhitespace_of_isSpace (List.all_eq_true.mp hs c hmem)] at hc
  cases hc

theorem isQuote_iff : isQuote c = true ↔ c = '"' ∨ c = '\'' := by
  rw [isQuote, Bool.or_eq_true, decide_eq_true_eq, decide_eq_true_eq]

theorem isNameChar_of_isQuote (h : isQuote c = true) : isNameChar c = false := by
  rcases isQuote_iff.mp h with rfl | rfl <;> decide

theorem isWhitespace_of_isQuote (h : isQuote c = true) : isWhitespace c = false := by
  rcases isQuote_iff.mp h with rfl | rfl <;> decide

theorem Attr.quote_not_mem_value (a : Attr) : a.quote ∉ a.value := fun h => by
  have hv := List.all_eq_true.mp a.value_ok _ h
  rw [Bool.and_eq_true, bne_self_eq_false] at hv
  exact Bool.false_ne_true hv.1

theorem Attr.not_mem_text (a : Attr) : '<' ∉ a.text := by
  have hquote : a.quote ≠ '<' := by
    rcases isQuote_iff.mp a.quote_ok with h | h <;> rw [h] <;> decide
  have hvalue : '<' ∉ a.value := fun h => by
    have hv := List.all_eq_true.mp a.value_ok _ h
    rw [Bool.and_eq_true, bne_self_eq_false] at hv
    exact Bool.false_ne_true hv.2
  simp only [Attr.text, Attr.core, List.mem_append, List.mem_cons, List.not_mem_nil, or_false, not_or]
  exact ⟨not_mem_space a.lead_space (by decide), not_mem_name a.name_ok (by decide),
    not_mem_space a.before_space (by decide), by decide, not_mem_space a.after_space (by decide),
    hquote.symm, hvalue, hquote.symm⟩

theorem Tag.not_mem_attrsText (t : Tag) : '<' ∉ t.attrsText := by
  intro h
  obtain ⟨a, -, ha⟩ := List.mem_flatMap.mp h
  exact a.not_mem_text ha

theorem Tag.not_mem_text (t : Tag) : '<' ∉ t.text := by
  simp only [Tag.text, List.mem_append, not_or]
  refine ⟨not_mem_name t.name_ok (by decide), t.not_mem_attrsText, not_mem_space t.trail_space (by decide), ?_⟩
  split <;> decide

theorem EndTag.not_mem_text (t : EndTag) : '<' ∉ t.text := by
  simp only [EndTag.text, List.mem_cons, List.mem_append, not_or]
  exact ⟨by decide, not_mem_name t.name_ok (by decide), not_mem_space t.trail_space (by decide)⟩

theorem Piece.not_mem_text (p : Piece) : '<' ∉ p.text := by
  cases p with
  | plain s hs =>
      intro h
      simpa using List.all_eq_true.mp hs _ h
  | quoted quote s hquote hs =>
      have hne : '<' ≠ quote := by
        rintro rfl
        cases hquote
      have hs' : '<' ∉ s := fun h => by simpa using List.all_eq_true.mp hs _ h
      simp [Piece.text, hne, hs']

theorem Declaration.not_mem_text (d : Declaration) : '<' ∉ d.text := by
  have hmark : '<' ≠ d.mark := by
    rcases d.mark_ok with h | h <;> rw [h] <;> decide
  simp only [Declaration.text, List.mem_cons, List.mem_append, List.mem_flatMap, not_or, not_exists, not_and]
  exact ⟨hmark, not_mem_name d.word_ok (by decide), fun p _ => p.not_mem_text⟩

end Shapes

/-! ## Comments -/

/-- What opens a comment is found at a comment only. -/
def Item.outside : Item → Prop
  | .chars _ _ | .declaration _ | .start _ | .stop _ => True
  | .comment _ _ | .cdata _ _ | .instruction _ _ => False

theorem clear_comment_tag {inner : Str} (hmem : '<' ∉ inner)
    (hhead : ∀ rest, inner ++ ['>'] ≠ '!' :: '-' :: rest) (hlen : inner ≠ []) :
    Clear commentOpen ('<' :: (inner ++ ['>'])) := by
  have hmem' : '<' ∉ inner ++ ['>'] := by simpa using hmem
  refine clear_cons hmem' fun b hpre => ?_
  obtain ⟨c, d, rest, hinner⟩ : ∃ c d rest, inner ++ ['>'] = c :: d :: rest := by
    match inner, hlen with
    | [c], _ => exact ⟨c, '>', [], rfl⟩
    | c :: d :: rest, _ => exact ⟨c, d, rest ++ ['>'], rfl⟩
  rw [hinner] at hpre
  obtain ⟨rfl, htwo⟩ := List.cons_prefix_cons.mp hpre
  obtain ⟨rfl, -⟩ := List.cons_prefix_cons.mp htwo
  exact hhead rest hinner

theorem head_name_ne {s rest tail : Str} {c : Char} (hs : s.all isNameChar = true) (hne : s ≠ [])
    (hc : isNameChar c = false) : s ++ rest ≠ c :: tail := by
  obtain ⟨d, s', rfl⟩ := List.exists_cons_of_ne_nil hne
  intro h
  obtain ⟨rfl, -⟩ := List.cons.inj h
  rw [List.all_eq_true.mp hs d List.mem_cons_self] at hc
  cases hc

theorem Item.clear_comment {item : Item} (h : item.outside) : Clear commentOpen item.text := by
  cases item with
  | chars s hs => exact clear_of_not_mem hs
  | start t =>
      refine clear_comment_tag t.not_mem_text (fun rest h => ?_) fun h => ?_
      · rw [Tag.text, List.append_assoc] at h
        exact head_name_ne t.name_ok t.name_ne (by decide) h
      · exact t.name_ne (List.append_eq_nil_iff.mp h).1
  | stop t =>
      refine clear_comment_tag t.not_mem_text (fun rest h => ?_) (List.cons_ne_nil _ _)
      exact absurd (List.cons.inj h).1 (by decide)
  | declaration d =>
      refine clear_comment_tag d.not_mem_text (fun rest h => ?_) (List.cons_ne_nil _ _)
      obtain ⟨c, w, hw⟩ := List.exists_cons_of_ne_nil d.word_ne
      rw [Declaration.text, hw] at h
      obtain ⟨rfl, -⟩ := List.cons.inj (List.cons.inj h).2
      exact d.word_head (by rw [hw]; rfl)
  | comment s hs => exact h.elim
  | cdata s hs => exact h.elim
  | instruction s hs => exact h.elim

/-- **A comment ends where it seems to**, looked at from its first character, unless it starts
like an end. -/
theorem firstIn_comment {s : Str} (hs : CommentText s) (hgt : s.head? ≠ some '>')
    (harrow : ¬['-', '>'] <+: s) (b : Str) :
    firstIn commentClose (commentOpen ++ (s ++ commentClose) ++ b) = some (commentOpen ++ s, b) := by
  have hclear : ∀ x c y, commentOpen ++ s = x ++ c :: y → ¬commentClose <+: c :: y ++ (commentClose ++ b) := by
    intro x c y hxy hpre
    obtain ⟨rfl, htwo⟩ := List.cons_prefix_cons.mp hpre
    match x, hxy with
    | [], h => exact absurd (List.cons.inj h).1 (by decide)
    | [_], h => exact absurd (List.cons.inj (List.cons.inj h).2).1 (by decide)
    | [_, _], h =>
        -- the two hyphens of the opening, so that the next character ends it
        obtain rfl : '-' :: s = y := (List.cons.inj (List.cons.inj (List.cons.inj h).2).2).2
        have hone := (List.cons_prefix_cons.mp htwo).2
        cases s with
        | nil => exact absurd (List.cons_prefix_cons.mp hone).1 (by decide)
        | cons d s => exact hgt (congrArg some (List.cons_prefix_cons.mp hone).1.symm)
    | [_, _, _], h =>
        -- the last hyphen of the opening and two characters
        obtain rfl : s = y := (List.cons.inj (List.cons.inj (List.cons.inj (List.cons.inj h).2).2).2).2
        match s, hs, harrow, htwo with
        | [], _, _, htwo =>
            exact absurd (List.cons_prefix_cons.mp (List.cons_prefix_cons.mp htwo).2).1 (by decide)
        | [d], hs, _, htwo => exact hs.last (congrArg some (List.cons_prefix_cons.mp htwo).1.symm)
        | d :: e :: s, _, harrow, htwo =>
            obtain ⟨rfl, hone⟩ := List.cons_prefix_cons.mp htwo
            obtain ⟨rfl, -⟩ := List.cons_prefix_cons.mp hone
            exact harrow (List.prefix_append ['-', '>'] s)
    | _ :: _ :: _ :: _ :: u, h =>
        -- inside the comment, where no two hyphens stand together and none stands last
        obtain rfl : s = u ++ '-' :: y :=
          (List.cons.inj (List.cons.inj (List.cons.inj (List.cons.inj h).2).2).2).2
        cases y with
        | nil => exact hs.last (by rw [List.getLast?_concat])
        | cons d y =>
            obtain ⟨rfl, -⟩ := List.cons_prefix_cons.mp htwo
            exact hs.noHyphens ⟨u, y, by rw [List.append_assoc]; rfl⟩
  have htext : commentOpen ++ (s ++ commentClose) ++ b = (commentOpen ++ s) ++ (commentClose ++ b) := by
    simp only [List.append_assoc]
  rw [htext, firstIn_append hclear, firstIn_self (by decide), Option.map_some, List.append_nil]

/-! ## Reading an attribute -/

/-- An equals sign and the quote that opens a value, with white space before each: the quote, and
what follows it. -/
def openQuote (after : Str) : Option (Char × Str) :=
  match after.dropWhile isWhitespace with
  | '=' :: rest =>
      match rest.dropWhile isWhitespace with
      | c :: rest => if isQuote c then some (c, rest) else none
      | [] => none
  | _ => none

/-- A value in which the word stands like the name of an attribute: behind white space, and before
what opens a value, be it the quote that ends this one. -/
def hides (edge : Option Char → Bool) (word : Str) (quote : Char) : Str → Bool
  | [] => false
  | c :: cs =>
      (edge (some c) && word.isPrefixOf cs && (openQuote (cs.drop word.length ++ [quote])).isSome) ||
        hides edge word quote cs

/-- No attribute before that of the name hides the name; where there is none, no attribute does. -/
def legible (edge : Option Char → Bool) (word : Str) : List Attr → Bool
  | [] => true
  | a :: attrs => a.name = word || (!hides edge word a.quote a.value && legible edge word attrs)

/-- What reads the value of an attribute at a place of its name: `edge` is what it asks of the
character before. -/
structure Reads {β : Type} (edge : Option Char → Bool) (read : Option Char → Str → Option β) (f : Str → β) :
    Prop where
  space : ∀ c, isSpace c = true → edge (some c) = true
  nonspace : ∀ c, isWhitespace c = false → edge (some c) = false
  apart : ∀ before after, edge before = false → read before after = none
  bare : ∀ before after, openQuote after = none → read before after = none
  value : ∀ before after quote v rest, edge before = true → openQuote after = some (quote, v ++ quote :: rest) →
    quote ∉ v → read before after = some (f v)

section Attributes

theorem dropWhile_append_of_not {p : Char → Bool} {c : Char} (hc : p c = false) (a b : Str) :
    (a ++ c :: b).dropWhile p = a.dropWhile p ++ c :: b := by
  rw [List.dropWhile_append]
  split
  · rename_i h
    rw [List.isEmpty_iff.mp h, List.dropWhile_cons_of_neg (by rw [hc]; exact Bool.false_ne_true)]
    rfl
  · rfl

theorem dropWhile_space_append {s : Str} (hs : s.all isSpace = true) (b : Str) :
    (s ++ b).dropWhile isWhitespace = b.dropWhile isWhitespace :=
  List.dropWhile_append_of_pos fun c hc => isWhitespace_of_isSpace (List.all_eq_true.mp hs c hc)

/-- Whether a value is opened is decided before a quote ends. -/
theorem openQuote_isSome_append {quote : Char} (hquote : isQuote quote = true) (a b : Str) :
    (openQuote (a ++ quote :: b)).isSome = (openQuote (a ++ [quote])).isSome := by
  have hws := isWhitespace_of_isQuote hquote
  unfold openQuote
  rw [dropWhile_append_of_not hws, dropWhile_append_of_not hws]
  cases a.dropWhile isWhitespace with
  | nil =>
      have hne : quote ≠ '=' := by
        rintro rfl
        cases hquote
      simp [hne]
  | cons c rest =>
      by_cases hc : c = '='
      · subst hc
        simp only [List.cons_append, dropWhile_append_of_not hws]
        cases rest.dropWhile isWhitespace with
        | nil => simp [hquote]
        | cons d rest => simp only [List.cons_append]; split <;> rfl
      · simp [hc]

theorem hides_of_split {edge : Option Char → Bool} {word x y : Str} {quote c : Char}
    (hc : edge (some c) = true) (hopen : (openQuote (y ++ [quote])).isSome = true) :
    hides edge word quote (x ++ c :: (word ++ y)) = true := by
  induction x with
  | nil =>
      rw [List.nil_append, hides, hc, List.drop_left, hopen,
        List.isPrefixOf_iff_prefix.mpr (List.prefix_append word y)]
      rfl
  | cons d x ih => rw [List.cons_append, hides, ih, Bool.or_true]

theorem prefix_of_not_mem {word a b : Str} {c : Char} (h : word <+: a ++ c :: b) (hc : c ∉ word) :
    word <+: a := by
  obtain ⟨t, ht⟩ := h
  rcases List.append_eq_append_iff.mp ht with ⟨z, rfl, -⟩ | ⟨z, rfl, hz⟩
  · exact List.prefix_append word z
  · cases z with
    | nil => rw [List.append_nil]
    | cons d z =>
        obtain ⟨rfl, -⟩ := List.cons.inj hz
        exact absurd (List.mem_append_right a List.mem_cons_self) hc

variable {β : Type} {edge : Option Char → Bool} {read : Option Char → Str → Option β} {f : Str → β}
  {word : Str} {before : Option Char} {a : Attr} {rest : Str}

/-- A name is not found where no character of a name is. -/
theorem firstWord_skip_of_not (hword : word.all isNameChar = true) (hne : word ≠ []) {s : Str}
    (hs : ∀ c ∈ s, isNameChar c = false) :
    firstWord word read before (s ++ rest) = firstWord word read (s.getLast?.or before) rest := by
  refine firstWord_skip fun x c y hxy hpre => ?_
  obtain ⟨d, w, rfl⟩ := List.exists_cons_of_ne_nil hne
  obtain ⟨rfl, -⟩ := List.cons_prefix_cons.mp hpre
  have hd := hs d (by rw [hxy]; exact List.mem_append_right x List.mem_cons_self)
  rw [List.all_eq_true.mp hword d List.mem_cons_self] at hd
  cases hd

theorem isNameChar_of_isSpace {c : Char} (h : isSpace c = true) : isNameChar c = false := by
  rw [isNameChar, isWhitespace_of_isSpace h]
  rfl

variable (hread : Reads edge read f) (hword : word.all isNameChar = true) (hne : word ≠ [])

include hread hword

/-- Another name is not mistaken for the word: what follows the word in it, or what precedes, is a
character of a name. -/
theorem firstWord_skip_name {name : Str} (hname : name.all isNameChar = true) (hother : name ≠ word) {d : Char}
    (hd : isNameChar d = false) :
    firstWord word read before (name ++ d :: rest) =
      firstWord word read (name.getLast?.or before) (d :: rest) := by
  refine firstWord_skip fun x c y hxy hpre => ?_
  rcases List.eq_nil_or_concat' x with rfl | ⟨x', e, rfl⟩
  · -- at the start of the name
    rw [List.nil_append] at hxy
    rw [← hxy] at hpre
    obtain ⟨z, hz⟩ := prefix_of_not_mem hpre (not_mem_name hword hd)
    rw [← hxy, ← hz, List.append_assoc, List.drop_left]
    cases z with
    | nil => exact absurd (by rw [← hz, List.append_nil]) hother
    | cons e z =>
        have he : isNameChar e = true :=
          List.all_eq_true.mp hname e (by rw [← hz]; exact List.mem_append_right word List.mem_cons_self)
        refine hread.bare _ _ ?_
        unfold openQuote
        have hstart : ¬isWhitespace e = true := by
          rw [isWhitespace_of_isNameChar he]
          exact Bool.false_ne_true
        rw [List.cons_append, List.dropWhile_cons_of_neg hstart]
        have hnot : e ≠ '=' := by
          rintro rfl
          cases he
        simp [hnot]
  · -- inside the name
    have he : isNameChar e = true := by
      refine List.all_eq_true.mp hname e ?_
      rw [hxy]
      exact List.mem_append_left _ (List.mem_append_right x' List.mem_cons_self)
    rw [List.getLast?_concat]
    exact hread.apart _ _ (hread.nonspace e (isWhitespace_of_isNameChar he))

/-- Nor is what a value holds, unless it hides the word. -/
theorem firstWord_skip_value {quote : Char} {value : Str} (hquote : isQuote quote = true)
    (hhides : hides edge word quote value = false) :
    firstWord word read (some quote) (value ++ quote :: rest) = firstWord word read (some quote) rest := by
  have hskip := @firstWord_skip β word (value ++ [quote]) rest read (some quote) ?_
  · rw [List.append_assoc, List.getLast?_concat] at hskip
    exact hskip
  · intro x c y hxy hpre
    have hmem : quote ∉ word := not_mem_name hword (isNameChar_of_isQuote hquote)
    rcases List.eq_nil_or_concat' x with rfl | ⟨x', e, rfl⟩
    · exact hread.apart _ _ (hread.nonspace quote (isWhitespace_of_isQuote hquote))
    · rw [List.getLast?_concat]
      cases hedge : edge (some e) with
      | false => exact hread.apart _ _ hedge
      | true =>
          -- the word stands in the value, behind a character that `edge` takes
          obtain ⟨v, hv⟩ : ∃ v, c :: y = v ++ [quote] := by
            have hlast : (c :: y).getLast? = some quote := by
              rw [← List.getLast?_append_cons (x' ++ [e]) c y, ← hxy, List.getLast?_concat]
            exact List.getLast?_eq_some_iff.mp hlast
          rw [hv, List.append_assoc] at hpre ⊢
          obtain ⟨z, rfl⟩ := prefix_of_not_mem hpre hmem
          have hvalue : value = x' ++ e :: (word ++ z) := by
            rw [hv, ← List.append_assoc] at hxy
            have hinit := List.append_inj_left' hxy rfl
            rw [hinit, List.append_assoc]
            rfl
          rw [List.append_assoc, List.drop_left]
          refine hread.bare _ _ (Option.not_isSome_iff_eq_none.mp fun hopen => ?_)
          rw [List.singleton_append, openQuote_isSome_append hquote] at hopen
          rw [hvalue, hides_of_split hedge hopen] at hhides
          cases hhides

include hne

/-- **One attribute**: it is read when it has the name, and passed by otherwise. -/
theorem firstWord_core (hbefore : edge before = true)
    (hhides : a.name ≠ word → hides edge word a.quote a.value = false) :
    firstWord word read before (a.core ++ rest) =
      if a.name = word then some (f a.value) else firstWord word read (some a.quote) rest := by
  have hquote := a.quote_ok
  -- what follows the name opens the value
  have hopen : openQuote (a.before ++ '=' :: (a.after ++ a.quote :: (a.value ++ a.quote :: rest))) =
      some (a.quote, a.value ++ a.quote :: rest) := by
    unfold openQuote
    rw [dropWhile_space_append a.before_space, List.dropWhile_cons_of_neg (by decide)]
    simp only
    rw [dropWhile_space_append a.after_space,
      List.dropWhile_cons_of_neg (by rw [isWhitespace_of_isQuote hquote]; exact Bool.false_ne_true)]
    simp only [hquote, if_true]
  have htext : a.core ++ rest =
      a.name ++ (a.before ++ '=' :: (a.after ++ a.quote :: (a.value ++ a.quote :: rest))) := by
    simp [Attr.core]
  rw [htext]
  split
  · rename_i hname
    obtain ⟨d, w, hd⟩ := List.exists_cons_of_ne_nil hne
    rw [hname, hd, List.cons_append, firstWord, if_pos, ← List.cons_append, List.drop_left,
      hread.value _ _ _ _ _ hbefore hopen a.quote_not_mem_value, Option.some_or]
    rw [List.isPrefixOf_iff_prefix, ← List.cons_append]
    exact List.prefix_append _ _
  · rename_i hname
    -- past the name, what stands between it and the value, and the value
    have hsep : ∀ c ∈ a.before ++ '=' :: (a.after ++ [a.quote]), isNameChar c = false := by
      intro c hc
      rw [List.mem_append, List.mem_cons, List.mem_append, List.mem_singleton] at hc
      rcases hc with hc | rfl | hc | rfl
      · exact isNameChar_of_isSpace (List.all_eq_true.mp a.before_space c hc)
      · decide
      · exact isNameChar_of_isSpace (List.all_eq_true.mp a.after_space c hc)
      · exact isNameChar_of_isQuote hquote
    have hsplit : a.before ++ '=' :: (a.after ++ a.quote :: (a.value ++ a.quote :: rest)) =
        (a.before ++ '=' :: (a.after ++ [a.quote])) ++ (a.value ++ a.quote :: rest) := by simp
    obtain ⟨d, tail, hd⟩ : ∃ d tail, a.before ++ '=' :: (a.after ++ [a.quote]) = d :: tail :=
      List.exists_cons_of_ne_nil (by simp)
    have hlast : (a.before ++ '=' :: (a.after ++ [a.quote])).getLast? = some a.quote := by
      rw [List.getLast?_append_cons, ← List.cons_append, List.getLast?_concat]
    rw [hsplit, hd, List.cons_append,
      firstWord_skip_name hread hword a.name_ok hname (hsep d (by rw [hd]; exact List.mem_cons_self)),
      ← List.cons_append, ← hd, firstWord_skip_of_not hword hne hsep, hlast, Option.some_or,
      firstWord_skip_value hread hword hquote (hhides hname)]

/-- **The attributes of a tag**: the value of the first that has the name is read. -/
theorem firstWord_attrs {attrs : List Attr} (hlegible : legible edge word attrs = true)
    (hrest : ∀ before, firstWord word read before rest = none) :
    firstWord word read before (attrs.flatMap Attr.text ++ rest) =
      (attrs.find? fun a => a.name = word).map (f ∘ Attr.value) := by
  induction attrs generalizing before with
  | nil => exact hrest before
  | cons a attrs ih =>
      have hlead : ∀ c ∈ a.lead, isNameChar c = false := fun c hc =>
        isNameChar_of_isSpace (List.all_eq_true.mp a.lead_space c hc)
      have hedge : edge (a.lead.getLast?.or before) = true := by
        rw [List.getLast?_eq_some_getLast a.lead_ne, Option.some_or]
        exact hread.space _ (List.all_eq_true.mp a.lead_space _ (List.getLast_mem a.lead_ne))
      rw [legible, Bool.or_eq_true, decide_eq_true_eq, Bool.and_eq_true, Bool.not_eq_true'] at hlegible
      rw [List.flatMap_cons, List.append_assoc, Attr.text, List.append_assoc,
        firstWord_skip_of_not hword hne hlead,
        firstWord_core hread hword hne hedge fun hname => (hlegible.resolve_left hname).1, List.find?_cons]
      by_cases hname : a.name = word
      · rw [if_pos hname, decide_eq_true hname]
        rfl
      · rw [if_neg hname, decide_eq_false hname]
        exact ih (hlegible.resolve_left hname).2

end Attributes

end Devscout.Lib.Xml
