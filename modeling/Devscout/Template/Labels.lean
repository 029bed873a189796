/-
# Devscout.Template.Labels -- the parsers carry the lines along

No parser of the template language looks at the line of a token. Over two token lists with
the same tokens on other lines they refuse together, and otherwise give the same names; a
name comes with the line of an identifier that it is. So what holds of every identifier and
its lines in the two lists holds of every read and its lines.
-/

import Devscout.Lib.Related
import Devscout.Template.Micro

namespace Devscout.Template

open Lib Lib.Grammar Step

section Labels

variable (Q : String → Nat → Nat → Prop)

/-- The same token on other lines, for which `Q` holds where it is an identifier. -/
def SameToken (t t' : Token) : Prop := t.tok = t'.tok ∧ ∀ name, t.tok = .ident name → Q name t.line t'.line

/-- The same name with lines for which `Q` holds. -/
def SameRead (r r' : Read) : Prop := r.1 = r'.1 ∧ Q r.1 r.2 r'.2

/-- A method does not look at the lines. -/
def Blind (f : Step Token Read) : Prop := Related (SameToken Q) (SameRead Q) f f

def BlindReading (emit : Token → Option (List Read)) : Prop :=
  ReadAlike (SameToken Q) (SameRead Q) emit emit

def BlindTest (ok : List Token → Bool) : Prop := TestAlike (SameToken Q) ok ok

end Labels

variable {Q : String → Nat → Nat → Prop} {emit : Token → Option (List Read)} {inner : Nested}
  {allowAssign : Bool}

/-! ## Single tokens -/

/-- A reading that collects nothing and asks for the token alone. -/
theorem BlindReading.quiet (h : ∀ tok line line', emit ⟨tok, line⟩ = emit ⟨tok, line'⟩)
    (hnil : ∀ t rs, emit t = some rs → rs = []) : BlindReading Q emit := by
  rintro ⟨tok, line⟩ ⟨tok', line'⟩ ⟨heq, -⟩
  obtain rfl : tok = tok' := heq
  rw [h tok line line']
  cases hemit : emit ⟨tok, line'⟩ with
  | none => exact .none
  | some rs =>
      rw [hnil _ _ hemit]
      exact .some .nil

theorem blind_punctOf (p : String) : BlindReading Q (punctOf p) := by
  refine .quiet (fun _ _ _ => rfl) fun t rs h => ?_
  unfold punctOf at h
  split at h
  · exact (Option.some.inj h).symm
  · cases h

theorem blind_opOf (ops : List String) : BlindReading Q (opOf ops) := by
  refine .quiet (fun _ _ _ => rfl) fun t rs h => ?_
  unfold opOf at h
  split at h
  · split at h
    · exact (Option.some.inj h).symm
    · cases h
  · cases h

theorem blind_nameOf : BlindReading Q nameOf := by
  refine .quiet (fun _ _ _ => rfl) fun t rs h => ?_
  unfold nameOf at h
  split at h
  · exact (Option.some.inj h).symm
  · cases h

theorem blind_prefixOf : BlindReading Q prefixOf := by
  refine .quiet (fun _ _ _ => rfl) fun t rs h => ?_
  unfold prefixOf at h
  split at h
  · split at h
    · exact (Option.some.inj h).symm
    · cases h
  · split at h
    · exact (Option.some.inj h).symm
    · cases h
  · cases h

theorem blind_wordOf (word : String) : BlindReading Q (wordOf word) := by
  refine .quiet (fun _ _ _ => rfl) fun t rs h => ?_
  unfold wordOf at h
  split at h
  · exact (Option.some.inj h).symm
  · cases h

theorem sameRead_read {name : String} {line line' : Nat} (h : Q name line line') :
    List.Forall₂ (SameRead Q) (read name line) (read name line') := by
  unfold read
  split
  · exact .nil
  · exact .cons ⟨rfl, h⟩ .nil

theorem blind_rootOf : BlindReading Q rootOf := by
  rintro ⟨tok, line⟩ ⟨tok', line'⟩ ⟨heq, hline⟩
  obtain rfl : tok = tok' := heq
  cases tok with
  | ident name => exact .some (sameRead_read (hline name rfl))
  | literal => exact .none
  | punct p => exact .none

/-! ## The next tokens -/

theorem BlindReading.peek (h : BlindReading Q emit) : BlindTest Q (peek emit) := by
  intro ts ts' hts
  rcases hts with _ | ⟨ht, -⟩
  · rfl
  · rename_i t t' us us'
    have hemit := h t t' ht
    show (emit t).isSome = (emit t').isSome
    generalize emit t = first, emit t' = second at hemit ⊢
    rcases hemit with _ | _ <;> rfl

theorem forall₂_drop {ts ts' : List Token} (h : List.Forall₂ (SameToken Q) ts ts') :
    List.Forall₂ (SameToken Q) (ts.drop 1) (ts'.drop 1) := by
  rcases h with _ | ⟨-, hus⟩
  · exact .nil
  · exact hus

theorem blind_commaGoesOn : BlindTest Q commaGoesOn := by
  intro ts ts' hts
  unfold commaGoesOn
  rw [(blind_punctOf ",").peek ts ts' hts, (blind_punctOf "\x7d").peek _ _ (forall₂_drop hts)]

theorem blind_dottedName : BlindTest Q dottedName := by
  intro ts ts' hts
  unfold dottedName
  rw [(blind_opOf _).peek ts ts' hts, blind_nameOf.peek _ _ (forall₂_drop hts)]

theorem blind_notAtEnd : BlindTest Q notAtEnd := by
  intro ts ts' hts
  rcases hts with _ | _ <;> rfl

theorem blind_isEmpty : BlindTest Q List.isEmpty := by
  intro ts ts' hts
  rcases hts with _ | _ <;> rfl

/-! ## The methods -/

theorem blind_expectPunct (p : String) : Blind Q (expectPunct p) := Related.next (blind_punctOf p)

section Methods

variable (hpipe : Blind Q inner.pipe)
include hpipe

theorem blind_list (close : String) : Blind Q (list inner close) :=
  Related.choose (blind_punctOf close).peek (blind_expectPunct close)
    (hpipe.andThen ((Related.loop (blind_punctOf ",").peek ((blind_expectPunct ",").andThen hpipe)).andThen
      (blind_expectPunct close)))

/-- `: value`, behind a key. -/
theorem blind_keyed : Blind Q ((expectPunct ":").andThen inner.pipe) :=
  (blind_expectPunct ":").andThen hpipe

theorem blind_entry : Blind Q (entry inner) := by
  intro ts ts' hts
  rcases hts with _ | ⟨⟨htok, hline⟩, hus⟩
  · exact .none
  · rename_i t t' us us'
    obtain ⟨tok, line⟩ := t
    obtain ⟨tok', line'⟩ := t'
    obtain rfl : tok = tok' := htok
    cases tok with
    | ident key =>
        rw [entry, entry, (blind_punctOf ":").peek us us' hus]
        split
        · exact blind_keyed hpipe us us' hus
        · exact .some hus (sameRead_read (hline key rfl))
    | literal => exact blind_keyed hpipe us us' hus
    | punct p => exact .none

theorem blind_object : Blind Q (object inner) :=
  Related.choose (blind_punctOf _).peek (blind_expectPunct _)
    ((blind_entry hpipe).andThen ((Related.loop blind_commaGoesOn
      ((blind_expectPunct ",").andThen (blind_entry hpipe))).andThen
        ((Related.whenever (blind_punctOf ",").peek (blind_expectPunct ",")).andThen (blind_expectPunct _))))

omit hpipe in
theorem blind_thisMember : Blind Q thisMember :=
  Related.whenever blind_dottedName ((Related.next (blind_opOf _)).andThen (Related.next blind_rootOf))

theorem blind_primary : Blind Q (primary inner) := by
  intro ts ts' hts
  rcases hts with _ | ⟨⟨htok, hline⟩, hus⟩
  · exact .none
  · rename_i t t' us us'
    obtain ⟨tok, line⟩ := t
    obtain ⟨tok', line'⟩ := t'
    obtain rfl : tok = tok' := htok
    cases tok with
    | ident name =>
        rw [primary, primary]
        split
        · exact blind_thisMember us us' hus
        · exact .some hus (sameRead_read (hline name rfl))
    | literal => exact .some hus .nil
    | punct p =>
        rw [primary, primary]
        split
        · exact (hpipe.andThen (blind_expectPunct ")")) us us' hus
        · split
          · exact blind_list hpipe "]" us us' hus
          · split
            · exact blind_object hpipe us us' hus
            · exact .none

omit hpipe in
theorem blind_afterQuestionDot : Blind Q afterQuestionDot :=
  Related.choose blind_nameOf.peek (Related.next blind_nameOf) (Related.check (blind_opOf _).peek)

theorem blind_postfixOp : Blind Q (postfixOp inner) := by
  intro ts ts' hts
  rcases hts with _ | ⟨⟨htok, -⟩, hus⟩
  · exact .none
  · rename_i t t' us us'
    obtain ⟨tok, line⟩ := t
    obtain ⟨tok', line'⟩ := t'
    obtain rfl : tok = tok' := htok
    cases tok with
    | ident name => exact .none
    | literal => exact .none
    | punct p =>
        rw [postfixOp, postfixOp]
        split
        · exact Related.next blind_nameOf us us' hus
        · split
          · exact blind_afterQuestionDot us us' hus
          · split
            · exact (hpipe.andThen (blind_expectPunct "]")) us us' hus
            · split
              · exact blind_list hpipe ")" us us' hus
              · split
                · exact .some hus .nil
                · exact .none

theorem blind_postfixChain : Blind Q (postfixChain inner) :=
  (blind_primary hpipe).andThen (Related.loop (blind_opOf _).peek (blind_postfixOp hpipe))

variable (hunary : Blind Q inner.unary)
include hunary

theorem blind_unary : Blind Q (unary inner) :=
  Related.choose blind_prefixOf.peek ((Related.next blind_prefixOf).andThen hunary) (blind_postfixChain hpipe)

omit hpipe in
theorem blind_binary : Blind Q (binary inner) :=
  hunary.andThen (Related.loop (blind_opOf _).peek ((Related.next (blind_opOf _)).andThen hunary))

theorem blind_conditional : Blind Q (conditional inner) :=
  (blind_binary hunary).andThen (Related.whenever (blind_punctOf "?").peek
    ((blind_expectPunct "?").andThen (hpipe.andThen ((blind_expectPunct ":").andThen hpipe))))

theorem blind_assign : Blind Q (assign allowAssign inner) :=
  (blind_conditional hpipe hunary).andThen (Related.loop (blind_opOf _).peek
    ((Related.next (blind_opOf _)).andThen (blind_conditional hpipe hunary)))

theorem blind_pipe : Blind Q (pipe allowAssign inner) :=
  (blind_assign hpipe hunary).andThen (Related.loop (blind_punctOf "|").peek
    ((blind_expectPunct "|").andThen ((Related.next blind_nameOf).andThen
      (Related.loop (blind_punctOf ":").peek
        ((blind_expectPunct ":").andThen (blind_assign hpipe hunary))))))

end Methods

/-- The nested methods, level by level. -/
theorem blind_nested (allowAssign : Bool) (n : Nat) :
    Blind Q (nested allowAssign n).pipe ∧ Blind Q (nested allowAssign n).unary := by
  induction n with
  | zero => exact ⟨Related.fail, Related.fail⟩
  | succ n ih => exact ⟨blind_pipe ih.1 ih.2, blind_unary ih.1 ih.2⟩

/-! ## The entry points -/

/-- What two parses come to: both refuse, or the same names are read. -/
def SameReads (Q : String → Nat → Nat → Prop) : Option (List Read) → Option (List Read) → Prop :=
  Option.Rel (List.Forall₂ (SameRead Q))

theorem sameReads_complete {r r' : Option (List Token × List Read)}
    (h : Agree (SameToken Q) (SameRead Q) r r') : SameReads Q (r.bind complete) (r'.bind complete) := by
  rcases h with _ | ⟨hleft, hread⟩
  · exact .none
  · show SameReads Q (complete _) (complete _)
    unfold complete
    rcases hleft with _ | _
    · exact .some hread
    · exact .none

variable {toks toks' : List Token}

theorem parseBinding_blind (h : List.Forall₂ (SameToken Q) toks toks') :
    SameReads Q (parseBinding toks) (parseBinding toks') := by
  have hpipe := sameReads_complete ((blind_nested false MAX_DEPTH).1 toks toks' h)
  unfold parseBinding
  rcases h with _ | _
  · exact .some .nil
  · exact hpipe

theorem blind_statement : Blind Q statement :=
  Related.choose (blind_punctOf ";").peek (blind_expectPunct ";")
    ((blind_nested true MAX_DEPTH).1.andThen
      (Related.choose blind_notAtEnd (blind_expectPunct ";") (Related.check blind_isEmpty)))

theorem parseAction_blind (h : List.Forall₂ (SameToken Q) toks toks') :
    SameReads Q (parseAction toks) (parseAction toks') :=
  sameReads_complete (Related.loop blind_notAtEnd blind_statement toks toks' h)

/-! ## Directives -/

/-- The same local, or a read of the same name. -/
inductive SamePart (Q : String → Nat → Nat → Prop) : Part → Part → Prop
  | local_ {name : String} : SamePart Q (.local_ name) (.local_ name)
  | read {r r' : Read} (h : SameRead Q r r') : SamePart Q (.read r) (.read r')

def BlindPart (Q : String → Nat → Nat → Prop) (f : Step Token Part) : Prop :=
  Related (SameToken Q) (SamePart Q) f f

theorem Blind.ofReads {f : Step Token Read} (h : Blind Q f) : BlindPart Q (ofReads f) := by
  intro ts ts' hts
  have hread := h ts ts' hts
  unfold Template.ofReads
  generalize f ts = first, f ts' = second at hread ⊢
  rcases hread with _ | ⟨hleft, hread⟩
  · exact .none
  · refine .some hleft (List.forall₂_map_left_iff.mpr (List.forall₂_map_right_iff.mpr ?_))
    exact hread.imp fun _ _ hr => .read hr

theorem blind_localOf : ReadAlike (SameToken Q) (SamePart Q) localOf localOf := by
  rintro ⟨tok, line⟩ ⟨tok', line'⟩ ⟨heq, -⟩
  obtain rfl : tok = tok' := heq
  cases tok with
  | ident name => exact .some (.cons .local_ .nil)
  | literal => exact .none
  | punct p => exact .none

theorem blind_eatWord (word : String) : BlindPart Q (eatWord word) :=
  Blind.ofReads (Related.next (blind_wordOf word))

theorem blind_eatPunct (p : String) : BlindPart Q (eatPunct p) := (blind_expectPunct p).ofReads

theorem blind_eatIdent : BlindPart Q eatIdent := Blind.ofReads (Related.next blind_nameOf)

theorem blind_expression : BlindPart Q expression := (blind_nested false MAX_DEPTH).1.ofReads

theorem blind_exportAs : BlindPart Q exportAs :=
  Related.whenever (blind_wordOf "as").peek ((blind_eatWord "as").andThen (Related.next blind_localOf))

theorem blind_letItem : BlindPart Q letItem :=
  (blind_eatWord "let").andThen ((Related.next blind_localOf).andThen
    (Related.whenever (blind_punctOf "=").peek ((blind_eatPunct "=").andThen blind_eatIdent)))

theorem blind_firstItem : BlindPart Q firstItem := blind_expression.andThen blind_exportAs

theorem blind_keyItem : BlindPart Q keyItem :=
  blind_eatIdent.andThen (Related.choose (blind_wordOf "as").peek blind_exportAs
    ((Related.whenever (blind_punctOf ":").peek (blind_eatPunct ":")).andThen blind_firstItem))

theorem blind_item (first : Bool) : BlindPart Q (item first) := by
  refine Related.choose (blind_wordOf "let").peek blind_letItem ?_
  cases first
  · exact blind_keyItem
  · exact blind_firstItem

theorem blind_itemTurn (first : Bool) : BlindPart Q (itemTurn first) :=
  Related.andThen (Related.loop (blind_opOf _).peek (Blind.ofReads (Related.next (blind_opOf _))))
    (Related.whenever blind_notAtEnd (blind_item first))

theorem blind_items : BlindPart Q items :=
  (blind_itemTurn true).andThen (Related.loop blind_notAtEnd (blind_itemTurn false))

theorem locals_of_sameParts {parts parts' : List Part} (h : List.Forall₂ (SamePart Q) parts parts') :
    parts.filterMap Part.local? = parts'.filterMap Part.local? := by
  induction h with
  | nil => rfl
  | cons hpart _ ih =>
      rw [List.filterMap_cons, List.filterMap_cons, ih]
      rcases hpart with _ | _ <;> rfl

theorem reads_of_sameParts {parts parts' : List Part} (h : List.Forall₂ (SamePart Q) parts parts') :
    List.Forall₂ (SameRead Q) (parts.filterMap Part.read?) (parts'.filterMap Part.read?) := by
  induction h with
  | nil => exact .nil
  | cons hpart _ ih =>
      rcases hpart with _ | hread
      · exact ih
      · exact .cons hread ih

/-- What two directives come to: both are refused, or they declare the same locals and read the same
names. -/
inductive SameMicro (Q : String → Nat → Nat → Prop) : Option Micro → Option Micro → Prop
  | none : SameMicro Q none none
  | some {locals : List String} {reads reads' : List Read} (h : List.Forall₂ (SameRead Q) reads reads') :
      SameMicro Q (some ⟨locals, reads⟩) (some ⟨locals, reads'⟩)

theorem parseMicro_blind (h : List.Forall₂ (SameToken Q) toks toks') :
    SameMicro Q (parseMicro toks) (parseMicro toks') := by
  have hitems := blind_items toks toks' h
  unfold parseMicro
  generalize items toks = first, items toks' = second at hitems ⊢
  rcases hitems with _ | ⟨-, hparts⟩
  · exact .none
  · show SameMicro Q (some ⟨_, _⟩) (some ⟨_, _⟩)
    rw [locals_of_sameParts hparts]
    exact .some (reads_of_sameParts hparts)

end Devscout.Template
