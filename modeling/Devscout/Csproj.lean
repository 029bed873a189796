/-
# Devscout.Csproj -- what a project file says of references and tests

A project file is not parsed. Its comments are cut out of the text, the tags are taken one
after the other with the text between them, and an attribute is looked for in the text behind a
tag's name. `scanCsproj_render` says of which files this reads what is written in them: all but
those with a comment that seems to end where it begins, or with a value that looks like an
attribute in front of the one looked for.
-/

import Devscout.Lib.Xml

namespace Devscout.Csproj

open Lib Lib.Text Lib.Xml

/-! ## The scan -/

/-- `strip_xml_comments`; the fuel is more than the text is long. -/
def stripXmlComments : Nat → Str → Str
  | 0, _ => []
  | fuel + 1, rest =>
      match firstIn "<!--".toList rest with
      | none => rest
      | some (out, _) =>
          -- the end is looked for from where the comment begins
          match firstIn "-->".toList (rest.drop out.length) with
          | none => out
          | some (_, rest) => out ++ stripXmlComments fuel rest

/-- `TagInfo`. -/
structure TagInfo where
  name : Str
  isClosing : Bool
  selfClosing : Bool
  attrs : Str
  deriving DecidableEq

/-- `trim_end`. -/
def trimEnd (s : Str) : Str := s.rdropWhile isWhitespace

example : trimEnd ['a', ' ', 'b', '\n'] = ['a', ' ', 'b'] := by decide +kernel

/-- The second half of `next_tag`: what stands between `<` and `>`. -/
def TagInfo.parse (inner : Str) : TagInfo :=
  match trim inner with
  | '/' :: name => { name := trim name, isClosing := true, selfClosing := false, attrs := [] }
  | content =>
      let selfClosing := content.getLast? = some '/'
      let body := if selfClosing then trimEnd content.dropLast else content
      { name := body.takeWhile fun c => !isWhitespace c
        isClosing := false
        selfClosing := selfClosing
        attrs := trim (body.dropWhile fun c => !isWhitespace c) }

/-- The `>` that ends a tag: what is before it, from behind the `<`, and what is after. -/
def tagEnd : Option Char → Str → Option (Str × Str)
  | _, [] => none
  | some q, c :: cs => (tagEnd (if c = q then none else some q) cs).map fun r => (c :: r.1, r.2)
  | none, c :: cs =>
      if c = '>' then some ([], cs)
      else (tagEnd (if isQuote c then some c else none) cs).map fun r => (c :: r.1, r.2)

/-- `next_tag`: the text before the next tag, the tag and what follows it. -/
def nextTag (text : Str) : Option (Str × TagInfo × Str) :=
  match text.dropWhile (· != '<') with
  | [] => none
  | _ :: after =>
      (tagEnd none after).map fun r => (text.takeWhile (· != '<'), TagInfo.parse r.1, r.2)

/-- All tags with the texts before them; every tag takes some of the text, so the fuel is its
length. -/
def tagsFrom : Nat → Str → List (Str × TagInfo)
  | 0, _ => []
  | fuel + 1, text =>
      match nextTag text with
      | none => []
      | some (gap, tag, rest) => (gap, tag) :: tagsFrom fuel rest

/-- What `find_attr` asks of the character before a name. -/
def boundaryBefore : Option Char → Bool
  | none => true
  | some c => " \t\n\r\x0c".toList.contains c

/-- The body of the loop of `find_attr`, at one place of the name. -/
def attrAt (before : Option Char) (after : Str) : Option Str :=
  if boundaryBefore before then
    match after.dropWhile isWhitespace with
    | '=' :: valuePart =>
        match valuePart.dropWhile isWhitespace with
        | quote :: value =>
            if isQuote quote && value.contains quote then some (value.takeWhile (· != quote)) else none
        | [] => none
    | _ => none
  else none

/-- The loop of `find_attr`. -/
def findAttrFrom (name : Str) : Nat → Option Char → Str → Option Str
  | 0, _, _ => none
  | fuel + 1, before, attrs =>
      match firstIn name attrs with
      | none => none
      | some (skipped, after) =>
          (attrAt (skipped.getLast?.or before) after).or (findAttrFrom name fuel name.getLast? after)

def findAttr (attrs name : Str) : Option Str := findAttrFrom name (attrs.length + 1) none attrs

def projectReference : Str := "ProjectReference".toList

def packageReference : Str := "PackageReference".toList

def testElement : Str := "IsTestProject".toList

def includeName : Str := "Include".toList

def testSdk : Str := "Microsoft.NET.Test.Sdk".toList

structure CsprojFacts where
  projectRefs : List Str := []
  hasTestSdk : Bool := false
  isTestProject : Option Bool := none
  deriving DecidableEq

/-- `eq_ignore_ascii_case` with each of the two words. -/
def truthOf (gap : Str) : Option Bool :=
  let value := (trim gap).map Char.toLower
  if value = "true".toList then some true else if value = "false".toList then some false else none

def slashes (path : Str) : Str := path.map fun c => if c = '\\' then '/' else c

/-- The text before a tag is the value of the element that was just opened, if the tag ends it. -/
def CsprojFacts.close (facts : CsprojFacts) (awaiting : Option Str) (gap : Str) (tag : TagInfo) : CsprojFacts :=
  match awaiting with
  | some openName =>
      if tag.isClosing ∧ tag.name = openName then
        { facts with isTestProject := (truthOf gap).or facts.isTestProject }
      else facts
  | none => facts

/-- One turn of the loop of `scan_csproj`. -/
def scanTag (state : Option Str × CsprojFacts) (step : Str × TagInfo) : Option Str × CsprojFacts :=
  let (gap, tag) := step
  let facts := state.2.close state.1 gap tag
  if tag.isClosing then (none, facts)
  else if tag.name = projectReference then
    match findAttr tag.attrs includeName with
    | some value => (none, { facts with projectRefs := facts.projectRefs ++ [slashes value] })
    | none => (none, facts)
  else if tag.name = packageReference then
    (none, { facts with
      hasTestSdk := facts.hasTestSdk ||
        decide (findAttr tag.attrs includeName = some testSdk) })
  else if tag.name = testElement ∧ tag.selfClosing = false then
    (some testElement, facts)
  else (none, facts)

def scanCsproj (text : Str) : CsprojFacts :=
  let clean := stripXmlComments (text.length + 1) text
  ((tagsFrom clean.length clean).foldl scanTag (none, {})).2

/-! ## What is written -/

/-- The facts that a project file states, its values read by `value`. -/
def statedFacts (value : Str → Str) (doc : List Item) : CsprojFacts where
  projectRefs := ((starts doc).filter fun t => t.name = projectReference).filterMap fun t =>
    (t.attr includeName).map (slashes ∘ value)
  hasTestSdk := ((starts doc).filter fun t => t.name = packageReference).any fun t =>
    (t.attr includeName).map value = some testSdk
  isTestProject := ((elementTexts testElement doc).filterMap (truthOf ∘ value)).getLast?

/-! ## Attributes -/

theorem reads_attrAt : Reads boundaryBefore attrAt id where
  space c h := by
    simp only [isSpace, Bool.or_eq_true, decide_eq_true_eq] at h
    rcases h with ((rfl | rfl) | rfl) | rfl <;> rfl
  nonspace c h := by
    rw [boundaryBefore, Bool.eq_false_iff]
    intro hmem
    have hc := List.contains_iff_mem.mp hmem
    revert h
    rw [show " \t\n\r\x0c".toList = [' ', '\t', '\n', '\r', '\x0c'] from rfl] at hc
    simp only [List.mem_cons, List.not_mem_nil, or_false] at hc
    rcases hc with rfl | rfl | rfl | rfl | rfl <;> decide
  apart before after h := by rw [attrAt, h]; rfl
  bare before after h := by
    unfold attrAt
    unfold openQuote at h
    split
    · split
      · rename_i v hv
        rw [hv] at h
        simp only at h
        split
        · rename_i q w hw
          rw [hw] at h
          simp only at h
          have hq : ¬isQuote q = true := fun hq => by rw [if_pos hq] at h; cases h
          rw [if_neg fun hboth => hq (Bool.and_eq_true_iff.mp hboth).1]
        · rfl
      · rfl
    · rfl
  value before after quote v rest hedge hopen hv := by
    unfold openQuote at hopen
    unfold attrAt
    rw [if_pos hedge]
    split at hopen
    · rename_i w hw
      split at hopen
      · rename_i q u hu
        split at hopen
        · rename_i hq
          obtain ⟨rfl, rfl⟩ := Prod.mk.inj (Option.some.inj hopen)
          have hmem : (v ++ q :: rest).contains q = true :=
            List.contains_iff_mem.mpr (List.mem_append_right v List.mem_cons_self)
          simp only [hw, hu, hq, hmem, Bool.and_self, if_true]
          have hne : ∀ c ∈ v, (c != q) = true := fun c hc => by
            rw [bne_iff_ne]
            rintro rfl
            exact hv hc
          rw [List.takeWhile_append_of_pos hne, List.takeWhile_cons_of_neg (by simp), List.append_nil]
          rfl
        · cases hopen
      · cases hopen
    · cases hopen

theorem findAttrFrom_eq {d : Char} {w : Str} (hd : d ∉ w) {fuel : Nat} {before : Option Char} {attrs : Str}
    (hfuel : attrs.length < fuel) :
    findAttrFrom (d :: w) fuel before attrs = firstWord (d :: w) attrAt before attrs := by
  induction fuel generalizing before attrs with
  | zero => omega
  | succ fuel ih =>
      rw [findAttrFrom, firstWord_eq hd rfl]
      cases hfirst : firstIn (d :: w) attrs with
      | none => rfl
      | some r =>
          obtain ⟨skipped, after⟩ := r
          have hlen := congrArg List.length (firstIn_eq_some hfirst)
          simp only [List.length_append, List.length_cons] at hlen
          simp only
          rw [ih (by omega)]

/-- An attribute is found in the text behind the name of its tag. -/
theorem findAttr_attrsText {t : Tag} {d : Char} {w : Str} (hd : d ∉ w)
    (hword : (d :: w).all isNameChar = true) (h : legible boundaryBefore (d :: w) t.attrs = true) :
    findAttr (t.attrsText.dropWhile isWhitespace) (d :: w) = t.attr (d :: w) := by
  have hne : d :: w ≠ [] := List.cons_ne_nil d w
  have hnil : ∀ before, firstWord (d :: w) attrAt before [] = none := fun _ => rfl
  rw [findAttr, findAttrFrom_eq hd (Nat.lt_succ_self _), Tag.attr, Tag.attrsText]
  cases hattrs : t.attrs with
  | nil => rfl
  | cons a attrs =>
      -- the white space before the first attribute was trimmed away
      obtain ⟨e, n, hn⟩ := List.exists_cons_of_ne_nil a.name_ne
      have he : ¬isWhitespace e = true := by
        rw [isWhitespace_of_isNameChar (List.all_eq_true.mp a.name_ok e (by rw [hn]; exact List.mem_cons_self))]
        exact Bool.false_ne_true
      have hdrop : ((a :: attrs).flatMap Attr.text).dropWhile isWhitespace =
          a.core ++ attrs.flatMap Attr.text := by
        rw [List.flatMap_cons, Attr.text, List.append_assoc, dropWhile_space_append a.lead_space, Attr.core, hn,
          List.cons_append, List.cons_append, List.dropWhile_cons_of_neg he]
      rw [hattrs, legible, Bool.or_eq_true, decide_eq_true_eq, Bool.and_eq_true, Bool.not_eq_true'] at h
      rw [hdrop, firstWord_core reads_attrAt hword hne rfl fun hname => (h.resolve_left hname).1,
        List.find?_cons]
      by_cases hname : a.name = d :: w
      · rw [if_pos hname, decide_eq_true hname]
        rfl
      · have hrest : firstWord (d :: w) attrAt (some a.quote) (attrs.flatMap Attr.text ++ []) = _ :=
          firstWord_attrs reads_attrAt hword hne (h.resolve_left hname).2 hnil
        rw [List.append_nil] at hrest
        rw [if_neg hname, decide_eq_false hname, hrest]
        rfl

/-! ## Comments -/

/-- An item whose comment, if it is one, does not seem to end where it begins. -/
def closesLate : Item → Prop
  | .comment s _ => s.head? ≠ some '>' ∧ ¬['-', '>'] <+: s
  | item => item.outside

def isComment : Item → Bool
  | .comment _ _ => true
  | _ => false

theorem strip_clear {a : Str} (ha : Clear commentOpen a) (fuel : Nat) (b : Str) :
    stripXmlComments (fuel + 1) (a ++ b) = a ++ stripXmlComments (fuel + 1) b := by
  have hopen : "<!--".toList = commentOpen := rfl
  rw [stripXmlComments, stripXmlComments, hopen, firstIn_clear ha]
  cases firstIn commentOpen b with
  | none => rfl
  | some r =>
      simp only [Option.map_some, List.length_append, List.drop_length_add_append]
      cases firstIn "-->".toList (b.drop r.1.length) with
      | none => rfl
      | some _ => exact List.append_assoc ..

/-- The comments are cut out, and nothing else. -/
theorem strip_render {doc : List Item} (h : ∀ item ∈ doc, closesLate item) {fuel : Nat}
    (hfuel : (render doc).length < fuel) :
    stripXmlComments fuel (render doc) = render (doc.filter fun item => !isComment item) := by
  induction doc generalizing fuel with
  | nil =>
      obtain ⟨fuel, rfl⟩ : ∃ n, fuel = n + 1 := ⟨fuel - 1, by omega⟩
      rfl
  | cons item doc ih =>
      obtain ⟨fuel, rfl⟩ : ∃ n, fuel = n + 1 := ⟨fuel - 1, by omega⟩
      have hlen : (render (item :: doc)).length = item.text.length + (render doc).length := by
        rw [render, List.flatMap_cons, List.length_append]
        rfl
      have hitem := h item List.mem_cons_self
      have hdoc : ∀ item ∈ doc, closesLate item := fun item hmem => h item (List.mem_cons_of_mem _ hmem)
      have hkept : item.outside → isComment item = false →
          stripXmlComments (fuel + 1) (render (item :: doc)) =
            render ((item :: doc).filter fun item => !isComment item) := fun hout hno => by
        rw [render, List.flatMap_cons, strip_clear (Item.clear_comment hout), List.filter_cons_of_pos (by rw [hno]; rfl)]
        exact congrArg (item.text ++ ·) (ih hdoc (by omega))
      cases item with
      | comment s hs =>
          have hopen : "<!--".toList = commentOpen := rfl
          have hclose : "-->".toList = commentClose := rfl
          have hstart : firstIn commentOpen (commentOpen ++ (s ++ commentClose) ++ render doc) =
              some ([], s ++ commentClose ++ render doc) := by
            rw [List.append_assoc, firstIn_self (by decide)]
          have htext : render (.comment s hs :: doc) = commentOpen ++ (s ++ commentClose) ++ render doc :=
            List.flatMap_cons
          rw [htext, stripXmlComments, hopen, hstart, hclose]
          simp only [List.length_nil, List.drop_zero, firstIn_comment hs hitem.1 hitem.2, List.nil_append]
          rw [List.filter_cons_of_neg (by simp [isComment])]
          have hopened : (Item.comment s hs).text.length = 4 + (s ++ commentClose).length :=
            List.length_append
          exact ih hdoc (by omega)
      | chars s hs => exact hkept trivial rfl
      | declaration d => exact hkept trivial rfl
      | start t => exact hkept trivial rfl
      | stop t => exact hkept trivial rfl
      | cdata s hs => exact hitem.elim
      | instruction s hs => exact hitem.elim

/-! ## Tags -/

/-- What no `>` outside of quotes and no open quote are in. -/
def Quiet (p : Str) : Prop :=
  ∀ rest, tagEnd none (p ++ rest) = (tagEnd none rest).map fun r => (p ++ r.1, r.2)

theorem quiet_append {p q : Str} (hp : Quiet p) (hq : Quiet q) : Quiet (p ++ q) := by
  intro rest
  rw [List.append_assoc, hp, hq, Option.map_map]
  refine Option.map_congr fun r _ => ?_
  rw [Function.comp_apply, List.append_assoc]

theorem quiet_plain {p : Str} (hp : ∀ c ∈ p, c ≠ '>' ∧ isQuote c = false) : Quiet p := by
  intro rest
  induction p with
  | nil => exact (Option.map_id' ..).symm
  | cons c p ih =>
      obtain ⟨hgt, hquote⟩ := hp c List.mem_cons_self
      have hrest := ih fun d hd => hp d (List.mem_cons_of_mem c hd)
      rw [List.cons_append, tagEnd, if_neg hgt, hquote, if_neg Bool.false_ne_true, hrest, Option.map_map]
      rfl

theorem quiet_quoted {q : Char} {v : Str} (hq : isQuote q = true) (hv : q ∉ v) : Quiet (q :: (v ++ [q])) := by
  intro rest
  have hinside : ∀ {v : Str}, q ∉ v → tagEnd (some q) (v ++ q :: rest) =
      (tagEnd none rest).map fun r => (v ++ q :: r.1, r.2) := by
    intro v hv
    induction v with
    | nil => rw [List.nil_append, tagEnd, if_pos rfl]; rfl
    | cons c v ih =>
        have hne : c ≠ q := fun h => hv (by rw [h]; exact List.mem_cons_self)
        rw [List.cons_append, tagEnd, if_neg hne, ih fun h => hv (List.mem_cons_of_mem c h), Option.map_map]
        rfl
  have hgt : q ≠ '>' := by
    rintro rfl
    cases hq
  rw [List.cons_append, tagEnd, if_neg hgt, hq, if_pos rfl, List.append_assoc, List.singleton_append, hinside hv,
    Option.map_map]
  refine Option.map_congr fun r _ => ?_
  rw [Function.comp_apply, List.cons_append, List.append_assoc]
  rfl

theorem quiet_name {s : Str} (hs : s.all isNameChar = true) : Quiet s :=
  quiet_plain fun c hc => by
    have hname := List.all_eq_true.mp hs c hc
    refine ⟨?_, ?_⟩
    · rintro rfl
      cases hname
    · rw [Bool.eq_false_iff]
      intro hquote
      rw [isNameChar_of_isQuote hquote] at hname
      cases hname

theorem quiet_space {s : Str} (hs : s.all isSpace = true) : Quiet s :=
  quiet_plain fun c hc => by
    have hspace := List.all_eq_true.mp hs c hc
    simp only [isSpace, Bool.or_eq_true, decide_eq_true_eq] at hspace
    rcases hspace with ((rfl | rfl) | rfl) | rfl <;> exact ⟨by decide, rfl⟩

theorem quiet_attr (a : Attr) : Quiet a.text := by
  have hequals : Quiet ['='] := quiet_plain (forall_chars (by decide))
  exact quiet_append (quiet_space a.lead_space) (quiet_append (quiet_name a.name_ok)
    (quiet_append (quiet_space a.before_space) (quiet_append hequals
      (quiet_append (quiet_space a.after_space) (quiet_quoted a.quote_ok a.quote_not_mem_value)))))

theorem quiet_flatMap {α : Type} {text : α → Str} {l : List α} (h : ∀ a, Quiet (text a)) :
    Quiet (l.flatMap text) := by
  induction l with
  | nil => exact quiet_plain (by simp)
  | cons a l ih => rw [List.flatMap_cons]; exact quiet_append (h a) ih

theorem quiet_tag (t : Tag) : Quiet t.text := by
  refine quiet_append (quiet_name t.name_ok) (quiet_append (quiet_flatMap quiet_attr)
    (quiet_append (quiet_space t.trail_space) ?_))
  split
  · exact quiet_plain (forall_chars (by decide))
  · exact quiet_plain (by simp)

theorem quiet_endTag (t : EndTag) : Quiet t.text := by
  have hslash : Quiet ['/'] := quiet_plain (forall_chars (by decide))
  exact quiet_append hslash (quiet_append (quiet_name t.name_ok) (quiet_space t.trail_space))

theorem quiet_piece (p : Piece) : Quiet p.text := by
  cases p with
  | plain s hs =>
      refine quiet_plain fun c hc => ?_
      have h := List.all_eq_true.mp hs c hc
      simp only [Bool.and_eq_true, Bool.not_eq_true', bne_iff_ne] at h
      exact ⟨h.2, h.1.1⟩
  | quoted q s hq hs =>
      refine quiet_quoted hq fun hmem => ?_
      have h := List.all_eq_true.mp hs q hmem
      rw [bne_self_eq_false] at h
      cases h

theorem quiet_declaration (d : Declaration) : Quiet d.text := by
  have hmark : Quiet [d.mark] := quiet_plain fun c hc => by
    rw [List.mem_singleton] at hc
    subst hc
    rcases d.mark_ok with h | h <;> rw [h] <;> decide
  exact quiet_append hmark (quiet_append (quiet_name d.word_ok) (quiet_flatMap quiet_piece))

/-- A tag is taken whole, with the text before it. -/
theorem nextTag_append {gap inner : Str} (hgap : '<' ∉ gap) (hinner : Quiet inner) (rest : Str) :
    nextTag (gap ++ '<' :: (inner ++ '>' :: rest)) = some (gap, TagInfo.parse inner, rest) := by
  have hne : ∀ c ∈ gap, (c != '<') = true := fun c hc => by
    rw [bne_iff_ne]
    rintro rfl
    exact hgap hc
  rw [nextTag, List.dropWhile_append_of_pos hne, List.dropWhile_cons_of_neg (by decide),
    List.takeWhile_append_of_pos hne, List.takeWhile_cons_of_neg (by decide), List.append_nil]
  show (tagEnd none (inner ++ '>' :: rest)).map _ = _
  rw [hinner, tagEnd, if_pos rfl, Option.map_some, Option.map_some, List.append_nil]

/-! ## What a tag says -/

/-- The name of a tag with its attributes. -/
def core (t : Tag) : Str := t.name ++ t.attrsText

theorem exists_cons_name {s : Str} (hs : s.all isNameChar = true) (hne : s ≠ []) :
    ∃ c rest, s = c :: rest ∧ isNameChar c = true := by
  obtain ⟨c, rest, rfl⟩ := List.exists_cons_of_ne_nil hne
  exact ⟨c, rest, rfl, List.all_eq_true.mp hs c List.mem_cons_self⟩

/-- The last character of a tag's name and attributes ends a name or a value. -/
theorem core_last (t : Tag) : ∃ init c, core t = init ++ [c] ∧ isWhitespace c = false ∧ c ≠ '/' := by
  rcases List.eq_nil_or_concat' t.attrs with hnil | ⟨attrs, a, hattrs⟩
  · refine ⟨t.name.dropLast, t.name.getLast t.name_ne, ?_, ?_⟩
    · rw [core, Tag.attrsText, hnil, List.flatMap_nil, List.append_nil, List.dropLast_append_getLast]
    · have hlast := List.all_eq_true.mp t.name_ok _ (List.getLast_mem t.name_ne)
      refine ⟨isWhitespace_of_isNameChar hlast, fun h => ?_⟩
      rw [h] at hlast
      cases hlast
  · refine ⟨t.name ++ (attrs.flatMap Attr.text ++
      (a.lead ++ (a.name ++ (a.before ++ '=' :: (a.after ++ a.quote :: a.value))))), a.quote, ?_,
      isWhitespace_of_isQuote a.quote_ok, ?_⟩
    · simp [core, Tag.attrsText, hattrs, Attr.text, Attr.core]
    · rcases isQuote_iff.mp a.quote_ok with h | h <;> rw [h] <;> decide

theorem rdropWhile_space {s w : Str} (hw : w.all isSpace = true) {c : Char} (hc : isWhitespace c = false) :
    (s ++ [c] ++ w).rdropWhile isWhitespace = s ++ [c] := by
  induction w using List.reverseRecOn with
  | nil => rw [List.append_nil, List.rdropWhile_concat_neg _ _ _ (by rw [hc]; exact Bool.false_ne_true)]
  | append_singleton w d ih =>
      rw [List.all_append, Bool.and_eq_true] at hw
      have hd : isWhitespace d = true := isWhitespace_of_isSpace (by simpa using hw.2)
      rw [← List.append_assoc, List.rdropWhile_concat_pos _ _ _ hd]
      exact ih hw.1

theorem trimEnd_core (t : Tag) : trimEnd (core t ++ t.trail) = core t := by
  obtain ⟨init, c, hcore, hc, -⟩ := core_last t
  rw [trimEnd, hcore, rdropWhile_space t.trail_space hc]

/-- White space at the start is trimmed first. -/
theorem trim_of_head {s : Str} {c : Char} (hc : isWhitespace c = false) :
    trim (c :: s) = trimEnd (c :: s) := by
  rw [trim, List.dropWhile_cons_of_neg (by rw [hc]; exact Bool.false_ne_true)]
  rfl

/-- What is left of a start tag when it is taken apart. -/
def startInfo (t : Tag) : TagInfo where
  name := t.name
  isClosing := false
  selfClosing := t.closed
  attrs := t.attrsText.dropWhile isWhitespace

theorem trim_attrsText (t : Tag) : trim t.attrsText = t.attrsText.dropWhile isWhitespace := by
  rcases List.eq_nil_or_concat' t.attrs with hnil | ⟨attrs, a, hattrs⟩
  · rw [Tag.attrsText, hnil]
    rfl
  · have htext : t.attrsText = (attrs.flatMap Attr.text ++
        (a.lead ++ (a.name ++ (a.before ++ '=' :: (a.after ++ a.quote :: a.value))))) ++ a.quote :: [] := by
      simp [Tag.attrsText, hattrs, Attr.text, Attr.core]
    have hquote := isWhitespace_of_isQuote a.quote_ok
    rw [trim, htext, dropWhile_append_of_not hquote, List.rdropWhile_concat_neg]
    rw [hquote]
    exact Bool.false_ne_true

theorem takeWhile_name {s rest : Str} (hs : s.all isNameChar = true)
    (hrest : ∀ c ∈ rest.head?, isWhitespace c = true) :
    (s ++ rest).takeWhile (fun c => !isWhitespace c) = s ∧
      (s ++ rest).dropWhile (fun c => !isWhitespace c) = rest := by
  have hname : ∀ c ∈ s, (!isWhitespace c) = true := fun c hc => by
    rw [isWhitespace_of_isNameChar (List.all_eq_true.mp hs c hc)]
    rfl
  rw [List.takeWhile_append_of_pos hname, List.dropWhile_append_of_pos hname]
  cases rest with
  | nil => exact ⟨List.append_nil s, rfl⟩
  | cons c rest =>
      have hc : isWhitespace c = true := hrest c rfl
      rw [List.takeWhile_cons, List.dropWhile_cons, hc]
      exact ⟨List.append_nil s, rfl⟩

theorem head_attrsText (t : Tag) : ∀ c ∈ t.attrsText.head?, isWhitespace c = true := by
  rw [Tag.attrsText]
  cases t.attrs with
  | nil => exact fun c hc => nomatch hc
  | cons a attrs =>
      obtain ⟨d, lead, hd⟩ := List.exists_cons_of_ne_nil a.lead_ne
      intro c hc
      rw [List.flatMap_cons, Attr.text, hd] at hc
      obtain rfl := Option.some.inj hc
      exact isWhitespace_of_isSpace (List.all_eq_true.mp a.lead_space d (by rw [hd]; exact List.mem_cons_self))

/-- **A start tag** is taken apart as it was put together. -/
theorem parse_start (t : Tag) : TagInfo.parse t.text = startInfo t := by
  obtain ⟨c, n, hn, hc⟩ := exists_cons_name t.name_ok t.name_ne
  have hws := isWhitespace_of_isNameChar hc
  have hslash : c ≠ '/' := by
    rintro rfl
    cases hc
  obtain ⟨htake, hdrop⟩ := takeWhile_name t.name_ok (head_attrsText t)
  obtain ⟨init, e, hcore, he, heslash⟩ := core_last t
  have hhead : ∀ {rest}, core t ++ rest = c :: (n ++ t.attrsText ++ rest) := fun {rest} => by
    rw [core, hn]
    rfl
  have hfinal : ∀ content : Str, trim t.text = content → content.head? = some c →
      decide (content.getLast? = some '/') = t.closed →
      (if t.closed then trimEnd content.dropLast else content) = core t →
      TagInfo.parse t.text = startInfo t := by
    intro content htrim hcontent hclosed hbody
    obtain ⟨rest, rfl⟩ : ∃ rest, content = c :: rest := by
      cases content with
      | nil => cases hcontent
      | cons d rest => exact ⟨rest, by rw [Option.some.inj hcontent]⟩
    unfold TagInfo.parse
    rw [htrim]
    split
    · rename_i h
      exact absurd (List.cons.inj h).1 hslash
    · simp only [hclosed, startInfo]
      have hif : (if decide ((c :: rest).getLast? = some '/') = true then trimEnd (c :: rest).dropLast
          else c :: rest) = core t := by rw [hclosed]; exact hbody
      simp only [decide_eq_true_eq] at hif
      rw [hif, core, htake, hdrop, trim_attrsText]
  have htext : t.text = core t ++ (t.trail ++ if t.closed then ['/'] else []) := (List.append_assoc ..).symm
  cases hclosed : t.closed with
  | false =>
      refine hfinal (core t) ?_ ?_ ?_ ?_
      · rw [htext, hclosed, if_neg Bool.false_ne_true, List.append_nil, hhead, trim_of_head hws, ← hhead,
          trimEnd_core]
      · rw [← List.append_nil (core t), hhead]
        rfl
      · rw [hcore, List.getLast?_concat, decide_eq_false]
        · exact hclosed.symm
        · exact fun h => heslash (Option.some.inj h)
      · rw [hclosed, if_neg Bool.false_ne_true]
  | true =>
      have hlast : core t ++ (t.trail ++ ['/']) = (core t ++ t.trail) ++ ['/'] := (List.append_assoc ..).symm
      refine hfinal ((core t ++ t.trail) ++ ['/']) ?_ ?_ ?_ ?_
      · rw [htext, hclosed, if_pos rfl, hhead, trim_of_head hws, ← hhead, hlast, trimEnd,
          List.rdropWhile_concat_neg _ _ _ (by decide)]
      · rw [List.append_assoc, hhead]
        rfl
      · rw [List.getLast?_concat, hclosed]
        exact decide_eq_true rfl
      · rw [hclosed, if_pos rfl, List.dropLast_concat, trimEnd_core]

theorem trimEnd_cons {c : Char} (hc : isWhitespace c = false) (s : Str) : trimEnd (c :: s) = c :: trimEnd s := by
  rw [trimEnd, trimEnd, List.rdropWhile, List.rdropWhile, List.reverse_cons, dropWhile_append_of_not hc,
    List.reverse_append]
  rfl

/-- What is left of an end tag. -/
def stopInfo (t : EndTag) : TagInfo where
  name := t.name
  isClosing := true
  selfClosing := false
  attrs := []

theorem trimEnd_name {s w : Str} (hs : s.all isNameChar = true) (hne : s ≠ []) (hw : w.all isSpace = true) :
    trimEnd (s ++ w) = s := by
  have hlast := List.all_eq_true.mp hs _ (List.getLast_mem hne)
  have hsplit : s = s.dropLast ++ [s.getLast hne] := (List.dropLast_append_getLast hne).symm
  rw [trimEnd, hsplit, rdropWhile_space hw (isWhitespace_of_isNameChar hlast)]

theorem parse_stop (t : EndTag) : TagInfo.parse t.text = stopInfo t := by
  have htrim : trim t.text = '/' :: t.name := by
    rw [EndTag.text, trim_of_head (by decide), trimEnd_cons (by decide),
      trimEnd_name t.name_ok t.name_ne t.trail_space]
  obtain ⟨c, n, hn, hc⟩ := exists_cons_name t.name_ok t.name_ne
  have hname : trim t.name = t.name := by
    have hws := isWhitespace_of_isNameChar hc
    have hend : trimEnd (t.name ++ []) = t.name := trimEnd_name t.name_ok t.name_ne rfl
    rw [List.append_nil, hn] at hend
    rw [hn, trim_of_head hws, hend]
  unfold TagInfo.parse
  rw [htrim]
  simp only [stopInfo, hname]

/-- A declaration is taken for a start tag whose name no element has. -/
theorem parse_declaration (d : Declaration) :
    (TagInfo.parse d.text).isClosing = false ∧ (TagInfo.parse d.text).name.head? = some d.mark := by
  have hmark : isWhitespace d.mark = false ∧ d.mark ≠ '/' := by
    rcases d.mark_ok with h | h <;> rw [h] <;> decide
  obtain ⟨c, w, hw, hc⟩ := exists_cons_name d.word_ok d.word_ne
  have hws := isWhitespace_of_isNameChar hc
  have htrim : ∃ rest, trim d.text = d.mark :: c :: rest := by
    rw [Declaration.text, hw, trim_of_head hmark.1, trimEnd_cons hmark.1, List.cons_append, trimEnd_cons hws]
    exact ⟨_, rfl⟩
  obtain ⟨rest, htrim⟩ := htrim
  have hbody : ∀ s : Str, (trimEnd (d.mark :: s)).takeWhile (fun c => !isWhitespace c) ≠ [] ∧
      ((trimEnd (d.mark :: s)).takeWhile fun c => !isWhitespace c).head? = some d.mark := by
    intro s
    rw [trimEnd_cons hmark.1, List.takeWhile_cons, hmark.1]
    exact ⟨List.cons_ne_nil _ _, rfl⟩
  unfold TagInfo.parse
  rw [htrim]
  split
  · rename_i h
    exact absurd (List.cons.inj h).1 hmark.2
  · refine ⟨rfl, ?_⟩
    simp only
    split
    · exact (hbody _).2
    · rw [List.takeWhile_cons, hmark.1]
      rfl

/-- The tags of a text with the texts before them. -/
def tagsOf : Str → List Item → List (Str × TagInfo)
  | gap, .chars s _ :: doc => tagsOf (gap ++ s) doc
  | gap, .start t :: doc => (gap, startInfo t) :: tagsOf [] doc
  | gap, .stop t :: doc => (gap, stopInfo t) :: tagsOf [] doc
  | gap, .declaration d :: doc => (gap, TagInfo.parse d.text) :: tagsOf [] doc
  | gap, _ :: doc => tagsOf gap doc
  | _, [] => []

theorem tagsFrom_render {doc : List Item} (h : ∀ item ∈ doc, item.outside) {gap : Str} (hgap : '<' ∉ gap)
    {fuel : Nat} (hfuel : (gap ++ render doc).length ≤ fuel) :
    tagsFrom fuel (gap ++ render doc) = tagsOf gap doc := by
  induction doc generalizing gap fuel with
  | nil =>
      have hnone : nextTag (gap ++ []) = none := by
        have hall : ∀ c ∈ gap, (c != '<') = true := fun c hc => by
          rw [bne_iff_ne]
          rintro rfl
          exact hgap hc
        rw [nextTag, List.append_nil, List.dropWhile_eq_nil_iff.mpr hall]
      cases fuel with
      | zero => rfl
      | succ fuel => rw [tagsFrom, render, List.flatMap_nil, hnone]; rfl
  | cons item doc ih =>
      have hdoc : ∀ item ∈ doc, item.outside := fun item hmem => h item (List.mem_cons_of_mem _ hmem)
      have htag : ∀ {inner : Str}, Quiet inner → item.text = '<' :: (inner ++ ['>']) →
          tagsFrom fuel (gap ++ render (item :: doc)) = (gap, TagInfo.parse inner) :: tagsOf [] doc := by
        intro inner hinner htext
        have hall : gap ++ render (item :: doc) = gap ++ '<' :: (inner ++ '>' :: render doc) := by
          rw [render, List.flatMap_cons, htext]
          simp [render]
        rw [hall] at hfuel ⊢
        simp only [List.length_append, List.length_cons] at hfuel
        obtain ⟨fuel, rfl⟩ : ∃ n, fuel = n + 1 := ⟨fuel - 1, by omega⟩
        rw [tagsFrom, nextTag_append hgap hinner]
        exact congrArg _ (@ih hdoc [] (by simp) fuel (by rw [List.nil_append]; omega))
      cases item with
      | chars s hs =>
          have hboth : '<' ∉ gap ++ s := by
            rw [List.mem_append, not_or]
            exact ⟨hgap, hs⟩
          have hassoc : gap ++ render (.chars s hs :: doc) = (gap ++ s) ++ render doc := by
            rw [render, List.flatMap_cons, ← List.append_assoc]
            rfl
          rw [hassoc] at hfuel ⊢
          exact ih hdoc hboth hfuel
      | start t => rw [htag (quiet_tag t) rfl, parse_start]; rfl
      | stop t => rw [htag (quiet_endTag t) rfl, parse_stop]; rfl
      | declaration d => exact htag (quiet_declaration d) rfl
      | comment s hs => exact (h _ List.mem_cons_self).elim
      | cdata s hs => exact (h _ List.mem_cons_self).elim
      | instruction s hs => exact (h _ List.mem_cons_self).elim

theorem tagsOf_filter (doc : List Item) (gap : Str) :
    tagsOf gap (doc.filter fun item => !isComment item) = tagsOf gap doc := by
  induction doc generalizing gap with
  | nil => rfl
  | cons item doc ih =>
      cases item with
      | comment s hs =>
          rw [List.filter_cons_of_neg (by simp [isComment])]
          exact ih gap
      | chars s hs => exact ih (gap ++ s)
      | start t => exact congrArg ((gap, startInfo t) :: ·) (ih [])
      | stop t => exact congrArg ((gap, stopInfo t) :: ·) (ih [])
      | declaration d => exact congrArg ((gap, TagInfo.parse d.text) :: ·) (ih [])
      | cdata s hs => exact ih gap
      | instruction s hs => exact ih gap

/-! ## The facts -/

/-- The file can be read: there is nothing in it but declarations, tags, characters and comments,
no comment seems to end where it begins, and no value before an `Include` looks like one. -/
structure Readable (doc : List Item) : Prop where
  closes : ∀ item ∈ doc, closesLate item
  legible : ∀ t ∈ starts doc, t.name = projectReference ∨ t.name = packageReference →
    Xml.legible boundaryBefore includeName t.attrs = true

/-- Facts that were found, and those that come after. -/
def CsprojFacts.then (facts more : CsprojFacts) : CsprojFacts where
  projectRefs := facts.projectRefs ++ more.projectRefs
  hasTestSdk := facts.hasTestSdk || more.hasTestSdk
  isTestProject := more.isTestProject.or facts.isTestProject

/-- What an element that is open at the start of a text adds. -/
def pending (awaiting : Bool) (gap : Str) (doc : List Item) : List Str :=
  if awaiting then (charsUntil testElement gap doc).toList else []

def factsFrom (awaiting : Bool) (gap : Str) (doc : List Item) : CsprojFacts :=
  { statedFacts id doc with
    isTestProject :=
      ((pending awaiting gap doc ++ elementTexts testElement doc).filterMap truthOf).getLast? }

/-- The name the loop waits to see closed. -/
def awaited (awaiting : Bool) : Option Str := if awaiting then some testElement else none

/-- Whether a start tag leaves an element open whose text is read. -/
def opens (t : Tag) : Bool := t.name = testElement ∧ t.closed = false

theorem then_empty (facts : CsprojFacts) : facts.then {} = facts := by
  cases facts
  simp [CsprojFacts.then]

theorem close_of_not (facts : CsprojFacts) (awaiting : Option Str) (gap : Str) {tag : TagInfo}
    (h : tag.isClosing = false) : facts.close awaiting gap tag = facts := by
  unfold CsprojFacts.close
  split
  · rw [if_neg]
    rintro ⟨hclosing, -⟩
    rw [h] at hclosing
    cases hclosing
  · rfl

theorem scanTag_start {t : Tag} (h : t.name = projectReference ∨ t.name = packageReference →
      legible boundaryBefore includeName t.attrs = true) (awaiting : Option Str) (facts : CsprojFacts)
    (gap : Str) :
    scanTag (awaiting, facts) (gap, startInfo t) =
      (awaited (opens t), facts.then (statedFacts id [.start t])) := by
  have hfind : t.name = projectReference ∨ t.name = packageReference →
      findAttr (startInfo t).attrs includeName = t.attr includeName := fun hname =>
    findAttr_attrsText (by decide) (by decide) (h hname)
  have hother : projectReference ≠ packageReference := by decide
  have hclose : facts.close awaiting gap (startInfo t) = facts := close_of_not _ _ _ rfl
  have hstarts : starts [.start t] = [t] := rfl
  have htexts : elementTexts testElement [.start t] = [] := by
    rw [elementTexts]
    split <;> rfl
  unfold scanTag
  simp only [hclose]
  rw [if_neg (show ¬(startInfo t).isClosing = true from Bool.false_ne_true)]
  by_cases href : t.name = projectReference
  · have hopens : opens t = false := by
      rw [opens, href, decide_eq_false]
      exact fun h => absurd h.1 (by decide)
    rw [if_pos (show (startInfo t).name = _ from href), hfind (.inl href), hopens]
    cases hattr : t.attr includeName with
    | none => simp [awaited, statedFacts, hstarts, htexts, href, hattr, CsprojFacts.then]
    | some v => simp [awaited, statedFacts, hstarts, htexts, href, hattr, hother, CsprojFacts.then]
  · rw [if_neg (show ¬(startInfo t).name = _ from href)]
    by_cases hpackage : t.name = packageReference
    · have hopens : opens t = false := by
        rw [opens, hpackage, decide_eq_false]
        exact fun h => absurd h.1 (by decide)
      rw [if_pos (show (startInfo t).name = _ from hpackage), hfind (.inr hpackage), hopens]
      simp [awaited, statedFacts, hstarts, htexts, hpackage, hother.symm, CsprojFacts.then]
    · have hstated : statedFacts id [.start t] = {} := by
        simp [statedFacts, hstarts, htexts, href, hpackage]
      rw [if_neg (show ¬(startInfo t).name = _ from hpackage), hstated, then_empty, opens]
      by_cases hopens : t.name = testElement ∧ t.closed = false
      · have hinfo : (startInfo t).name = testElement ∧ (startInfo t).selfClosing = false := hopens
        rw [if_pos hinfo, decide_eq_true hopens]
        rfl
      · have hinfo : ¬((startInfo t).name = testElement ∧ (startInfo t).selfClosing = false) := hopens
        rw [if_neg hinfo, decide_eq_false hopens]
        rfl

theorem scanTag_stop (t : EndTag) (awaiting : Bool) (facts : CsprojFacts) (gap : Str) :
    scanTag (awaited awaiting, facts) (gap, stopInfo t) =
      (none, facts.then { isTestProject :=
        ((pending awaiting gap [.stop t]).filterMap truthOf).getLast? }) := by
  have hclose : facts.close (awaited awaiting) gap (stopInfo t) = facts.then { isTestProject :=
      ((pending awaiting gap [.stop t]).filterMap truthOf).getLast? } := by
    cases awaiting with
    | false => exact (then_empty facts).symm
    | true =>
        unfold CsprojFacts.close awaited
        simp only [if_true]
        rw [pending, if_pos rfl, charsUntil]
        by_cases hname : t.name = testElement
        · have hinfo : (stopInfo t).isClosing = true ∧ (stopInfo t).name = testElement := ⟨rfl, hname⟩
          rw [if_pos hinfo, if_pos hname]
          cases htruth : truthOf gap with
          | none => simp [CsprojFacts.then, htruth]
          | some b => simp [CsprojFacts.then, htruth]
        · have hinfo : ¬((stopInfo t).isClosing = true ∧ (stopInfo t).name = testElement) :=
            fun h => hname h.2
          rw [if_neg hinfo, if_neg hname]
          exact (then_empty facts).symm
  unfold scanTag
  simp only [hclose]
  exact if_pos rfl

theorem scanTag_declaration (d : Declaration) (awaiting : Option Str) (facts : CsprojFacts) (gap : Str) :
    scanTag (awaiting, facts) (gap, TagInfo.parse d.text) = (none, facts) := by
  obtain ⟨hclosing, hhead⟩ := parse_declaration d
  -- none of the names looked for begins like a declaration
  have hname : ∀ {name : Str}, name.head?.all (fun c => c != '!' && c != '?') = true →
      (TagInfo.parse d.text).name ≠ name := by
    rintro name hname rfl
    rw [hhead] at hname
    rcases d.mark_ok with h | h <;> rw [h] at hname <;> cases hname
  unfold scanTag
  simp only [close_of_not _ _ _ hclosing]
  rw [if_neg (by rw [hclosing]; exact Bool.false_ne_true), if_neg (hname (by decide)), if_neg (hname (by decide)),
    if_neg fun h => hname (by decide) h.1]

theorem then_assoc (a b c : CsprojFacts) : (a.then b).then c = a.then (b.then c) := by
  simp only [CsprojFacts.then, List.append_assoc, Bool.or_assoc, Option.or_assoc]

theorem factsFrom_start (t : Tag) (awaiting : Bool) (gap : Str) (doc : List Item) :
    factsFrom awaiting gap (.start t :: doc) =
      (statedFacts id [.start t]).then (factsFrom (opens t) [] doc) := by
  have hpending : pending awaiting gap (.start t :: doc) = [] := by
    cases awaiting <;> rfl
  have htexts : elementTexts testElement (.start t :: doc) =
      pending (opens t) [] doc ++ elementTexts testElement doc := by
    rw [elementTexts, pending, opens]
    by_cases h : t.name = testElement ∧ t.closed = false
    · rw [if_pos h, decide_eq_true h, if_pos rfl]
    · rw [if_neg h, decide_eq_false h, if_neg Bool.false_ne_true, List.nil_append]
  have halone : elementTexts testElement [.start t] = [] := by
    rw [elementTexts]
    split <;> rfl
  have hstarts : starts (.start t :: doc) = [t] ++ starts doc := rfl
  have hone : starts [.start t] = [t] := rfl
  simp only [factsFrom, statedFacts, CsprojFacts.then, hpending, htexts, halone, hstarts, hone, List.filter_append,
    List.filterMap_append, List.any_append, List.nil_append, List.filterMap_nil, List.getLast?_nil, Option.or_none]

theorem factsFrom_stop (t : EndTag) (awaiting : Bool) (gap : Str) (doc : List Item) :
    factsFrom awaiting gap (.stop t :: doc) =
      { isTestProject := ((pending awaiting gap [.stop t]).filterMap truthOf).getLast? : CsprojFacts }.then
        (factsFrom false [] doc) := by
  have hpending : pending awaiting gap (.stop t :: doc) = pending awaiting gap [.stop t] := by
    cases awaiting <;> rfl
  have hrest : pending false [] doc = [] := rfl
  have htexts : elementTexts testElement (.stop t :: doc) = elementTexts testElement doc := rfl
  have hstarts : starts (.stop t :: doc) = starts doc := rfl
  simp only [factsFrom, statedFacts, CsprojFacts.then, hpending, hrest, htexts, hstarts, List.filterMap_append,
    List.nil_append, Bool.false_or, List.getLast?_append]

theorem factsFrom_declaration (d : Declaration) (awaiting : Bool) (gap : Str) (doc : List Item) :
    factsFrom awaiting gap (.declaration d :: doc) = factsFrom false [] doc := by
  cases awaiting <;> rfl

/-- **The whole scan** of the tags adds what is written. -/
theorem foldl_tagsOf {doc : List Item} (hdoc : ∀ item ∈ doc, closesLate item)
    (h : ∀ t ∈ starts doc, t.name = projectReference ∨ t.name = packageReference →
      legible boundaryBefore includeName t.attrs = true)
    (awaiting : Bool) (gap : Str) (facts : CsprojFacts) :
    ((tagsOf gap doc).foldl scanTag (awaited awaiting, facts)).2 =
      facts.then (factsFrom awaiting gap doc) := by
  induction doc generalizing awaiting gap facts with
  | nil =>
      have hempty : factsFrom awaiting gap [] = {} := by
        cases awaiting <;> rfl
      rw [hempty, then_empty]
      rfl
  | cons item doc ih =>
      have hrest : ∀ item ∈ doc, closesLate item := fun item hmem => hdoc item (List.mem_cons_of_mem _ hmem)
      cases item with
      | chars s hs => exact ih hrest h awaiting (gap ++ s) facts
      | comment s hs => exact ih hrest h awaiting gap facts
      | cdata s hs => exact (hdoc _ List.mem_cons_self).elim
      | instruction s hs => exact (hdoc _ List.mem_cons_self).elim
      | declaration d =>
          rw [tagsOf, List.foldl_cons, scanTag_declaration, factsFrom_declaration]
          exact ih hrest h false [] facts
      | start t =>
          have hstart := h t List.mem_cons_self
          rw [tagsOf, List.foldl_cons, scanTag_start hstart, factsFrom_start, ← then_assoc]
          exact ih hrest (fun t ht => h t (List.mem_cons_of_mem _ ht)) (opens t) [] _
      | stop t =>
          rw [tagsOf, List.foldl_cons, scanTag_stop, factsFrom_stop, ← then_assoc]
          exact ih hrest h false [] _

/-- **A project file is read as it is written**, when it can be read: the references in the order of
the text with the values as they stand, the test package, and the last test flag. -/
theorem scanCsproj_render {doc : List Item} (h : Readable doc) :
    scanCsproj (render doc) = statedFacts id doc := by
  have houtside : ∀ item ∈ doc.filter (fun item => !isComment item), item.outside := by
    intro item hmem
    obtain ⟨hmem, hno⟩ := List.mem_filter.mp hmem
    have hcloses := h.closes item hmem
    cases item with
    | comment s hs => cases hno
    | chars s hs => trivial
    | declaration d => trivial
    | start t => trivial
    | stop t => trivial
    | cdata s hs => exact hcloses.elim
    | instruction s hs => exact hcloses.elim
  have htags : tagsFrom (render (doc.filter fun item => !isComment item)).length
      (render (doc.filter fun item => !isComment item)) = tagsOf [] doc := by
    rw [← tagsOf_filter]
    exact @tagsFrom_render _ houtside [] (by simp) _ (Nat.le_refl _)
  have hfold := foldl_tagsOf h.closes h.legible false [] {}
  rw [scanCsproj, strip_render h.closes (Nat.lt_succ_self _)]
  simp only [htags]
  exact hfold.trans (by simp [CsprojFacts.then, factsFrom, pending, statedFacts])

/-! ## Files that cannot be read -/

/-- An attribute with one space before it and double quotes. -/
def plainAttr (name value : String) (hname : name.toList ≠ [] ∧ name.toList.all isNameChar = true)
    (hvalue : value.toList.all (fun c => c != '"' && c != '<') = true) : Attr where
  lead := [' ']
  name := name.toList
  before := []
  after := []
  quote := '"'
  value := value.toList
  lead_ne := List.cons_ne_nil _ _
  lead_space := rfl
  name_ne := hname.1
  name_ok := hname.2
  before_space := rfl
  after_space := rfl
  quote_ok := rfl
  value_ok := hvalue

/-- A `ProjectReference` that is its own end. -/
def reference (attrs : List Attr) : Item :=
  .start ⟨projectReference, attrs, [], true, by decide, by decide, rfl⟩

def inProject (inner : List Item) : List Item :=
  .start ⟨"Project".toList, [], [], false, by decide, by decide, rfl⟩ ::
    (inner ++ [.stop ⟨"Project".toList, [], by decide, by decide, rfl⟩])

/-- A reference whose path holds an ampersand. -/
def escapedReference : List Item :=
  inProject [reference [plainAttr "Include" "A&amp;B.csproj" (by decide +kernel) (by decide +kernel)]]

/-- A comment that starts with `>`, and what looks like a reference in it. -/
def commentedReference : List Item :=
  inProject [.comment "> <ProjectReference Include=\"Old.csproj\"/> ".toList
    ⟨by decide +kernel, by decide +kernel⟩]

/-- A label that looks like the path. -/
def labelledReference : List Item :=
  inProject [reference [plainAttr "Label" "was Include='Old.csproj'" (by decide +kernel) (by decide +kernel),
    plainAttr "Include" "New.csproj" (by decide +kernel) (by decide +kernel)]]

/-- Of these three files the scan does not read what is written: it leaves a reference in a value,
reads what stands in a comment, and reads what stands in another value. -/
theorem scanCsproj_misreads :
    scanCsproj (render escapedReference) ≠ statedFacts unescape escapedReference ∧
      scanCsproj (render commentedReference) ≠ statedFacts unescape commentedReference ∧
      scanCsproj (render labelledReference) ≠ statedFacts unescape labelledReference := by
  refine ⟨?_, ?_, ?_⟩
  · delta escapedReference inProject reference plainAttr
    decide +kernel
  · delta commentedReference inProject
    decide +kernel
  · delta labelledReference inProject reference plainAttr
    decide +kernel

/-- A file with a comment, a reference and a test flag. -/
def testProject : List Item :=
  inProject [.comment " <ProjectReference Include=\"Old.csproj\"/> ".toList ⟨by decide +kernel, by decide +kernel⟩,
    reference [plainAttr "Label" "x > y" (by decide +kernel) (by decide +kernel),
      plainAttr "Include" "..\\Core\\Core.csproj" (by decide +kernel) (by decide +kernel)],
    .start ⟨testElement, [], [], false, by decide, by decide, rfl⟩, .chars "True".toList (by decide),
    .stop ⟨testElement, [], by decide, by decide, rfl⟩]

theorem testProject_readable : Readable testProject where
  closes item hitem := by
    simp only [testProject, inProject, List.mem_cons, List.mem_append, List.not_mem_nil, or_false] at hitem
    rcases hitem with rfl | (rfl | rfl | rfl | rfl | rfl) | rfl <;>
      trivial
  legible t ht _ := by
    simp only [testProject, inProject, reference, starts, List.cons_append, List.nil_append, List.filterMap_cons,
      List.filterMap_nil, List.mem_cons, List.not_mem_nil, or_false] at ht
    rcases ht with rfl | rfl | rfl <;> decide +kernel

theorem scanCsproj_testProject :
    scanCsproj (render testProject) =
      { projectRefs := ["../Core/Core.csproj".toList], hasTestSdk := false, isTestProject := some true } := by
  rw [scanCsproj_render testProject_readable]
  decide +kernel

end Devscout.Csproj
