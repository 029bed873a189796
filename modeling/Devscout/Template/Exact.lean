/-
# Devscout.Template.Exact -- the parser against the grammar

Every method of the parser is exact for its rule, given that the nested `pipe` and `unary`
are; by induction on the free levels the two entry points are exact for the grammar. What
makes a choice of the parser right is which tokens a phrase can begin with, and that is a
fact about the grammar.

The derivations are the greedy ones, and a conditional shows why: in `c ? a | f : b` the
pipe takes the colon for its argument and nothing is left to separate the branches.
-/

import Devscout.Template.Expr

namespace Devscout.Template

open Lib Lib.Grammar Step

variable {allowAssign greedy : Bool} {n : Nat} {inner : Nested} {g h : Phrase}
  {emit : Token → Option (List Read)} {t : Token} {ts us : List Token} {rs : List Read}

/-! ## How phrases begin -/

@[simp] theorem peek_cons : peek emit (t :: us) = (emit t).isSome := rfl

/-- What an expression can begin with. -/
def opens (t : Token) : Bool :=
  match t.tok with
  | .ident _ | .literal => true
  | .punct p => decide (p ∈ ["!", "-", "+", "(", "[", "\x7b"])

theorem punctOf_isSome {p : String} : (punctOf p t).isSome = true ↔ t.tok = .punct p := by
  unfold punctOf
  split
  · rename_i heq
    simp [heq]
  · rename_i hne
    simp [hne]

theorem begins_punct {p : String} :
    Begins (template allowAssign) greedy n (punct p) fun t => (punctOf p t).isSome :=
  Begins.token

/-- A token that opens an expression, by what it is read as. -/
theorem opens_of_punct {p : String} (hp : p ∈ ["!", "-", "+", "(", "[", "\x7b"])
    (ht : (punctOf p t).isSome = true) : opens t = true := by
  rw [opens, punctOf_isSome.mp ht]
  exact decide_eq_true hp

theorem opens_of_prefix (ht : (prefixOf t).isSome = true) : opens t = true := by
  unfold opens
  split
  · rfl
  · rfl
  · rename_i p htok
    rw [prefixOf, htok] at ht
    simp only at ht
    split at ht
    · rename_i hp
      simp only [List.mem_cons, List.not_mem_nil, or_false] at hp ⊢
      rcases hp with rfl | rfl | rfl <;> simp
    · cases ht

theorem begins_primary :
    Begins (template allowAssign) greedy n (.ref .primary) fun t => opens t = true := by
  have hword : ∀ t : Token, (∀ p, t.tok ≠ .punct p) → opens t = true := by
    intro t ht
    unfold opens
    split
    · rfl
    · rfl
    · rename_i p htok
      exact absurd htok (ht p)
  refine Begins.name rfl (Begins.add (Begins.add (Begins.add (Begins.add (Begins.add ?_ ?_) ?_) ?_) ?_) ?_)
  · refine Begins.token.mono fun t ht => hword t fun p htok => ?_
    simp [primaryOf, htok] at ht
  · refine (Begins.token.mono fun t ht => hword t fun p htok => ?_).mul
    simp [thisOf, htok] at ht
  · refine Begins.token.mono fun t ht => hword t fun p htok => ?_
    simp [literalOf, htok] at ht
  · exact (begins_punct.mono fun t ht => opens_of_punct (by simp) ht).mul
  · exact (begins_punct.mono fun t ht => opens_of_punct (by simp) ht).mul
  · exact (begins_punct.mono fun t ht => opens_of_punct (by simp) ht).mul

theorem begins_unary :
    Begins (template allowAssign) greedy n (.ref .unary) fun t => opens t = true := by
  refine Begins.level rfl fun m => Begins.add ?_ ?_
  · exact (Begins.token.mono fun t => opens_of_prefix).mul
  · exact Begins.ahead_mul (Begins.name rfl begins_primary.mul)

theorem begins_pipe :
    Begins (template allowAssign) greedy n (.ref .pipe) fun t => opens t = true :=
  Begins.level rfl fun _ =>
    (Begins.name rfl (Begins.name rfl (Begins.name rfl begins_unary.mul).mul).mul).mul

/-- A phrase led by a token is entered where that token is next, and uses it. -/
theorem goes_of_begins (hb : Begins (template allowAssign) true n g fun t => (emit t).isSome)
    (hd : Derives (template allowAssign) true n g ts us rs) :
    peek emit ts = true ∧ us.length < ts.length := by
  obtain ⟨t, ts', rfl, ht, hless⟩ := hb ts us rs hd
  exact ⟨ht, Nat.lt_succ_of_le hless⟩

/-- No expression begins with a token that opens none. -/
theorem not_peek_of_begins {P : Token → Prop} (hP : ∀ t, P t → emit t = none)
    (hb : Begins (template allowAssign) true n g P)
    (hd : Derives (template allowAssign) true n g ts us rs) : peek emit ts = false := by
  obtain ⟨t, ts', rfl, ht, -⟩ := hb ts us rs hd
  rw [peek_cons, hP t ht]
  rfl

theorem punctOf_of_opens {p : String} (hp : p ∉ ["!", "-", "+", "(", "[", "\x7b"])
    (ht : opens t = true) : punctOf p t = none := by
  unfold punctOf
  rw [if_neg]
  intro htok
  rw [opens, htok] at ht
  exact hp (of_decide_eq_true ht)

/-- What an entry can begin with. -/
theorem begins_entry :
    Begins (template allowAssign) greedy n entryPhrase
      fun t => (nameOf t).isSome ∨ (literalOf t).isSome := by
  refine Begins.add (Begins.add ?_ ?_) ?_
  · exact (Begins.token.mono fun t => Or.inl).mul
  · refine (Begins.token.mono fun t ht => Or.inl ?_).mul
    revert ht
    unfold rootOf nameOf
    split <;> simp
  · exact (Begins.token.mono fun t => Or.inr).mul

theorem punctOf_of_entry {p : String} (ht : (nameOf t).isSome ∨ (literalOf t).isSome) :
    punctOf p t = none := by
  unfold punctOf
  rw [if_neg]
  intro htok
  simp [nameOf, literalOf, htok] at ht

/-- A comma goes on with an entry, never with the closing brace. -/
theorem commaGoesOn_of_derives
    (hd : Derives (template allowAssign) true n (punct "," * entryPhrase) ts us rs) :
    commaGoesOn ts = true ∧ us.length < ts.length := by
  obtain ⟨hcomma, hless⟩ := goes_of_begins begins_punct.mul hd
  obtain ⟨vs, rs₁, rs₂, hfirst, hentry, -⟩ := derives_mul_iff.mp hd
  obtain ⟨t, rfl, -⟩ := derives_token_iff.mp hfirst
  have hbrace : peek (punctOf "\x7d") vs = false :=
    not_peek_of_begins (fun t => punctOf_of_entry) begins_entry hentry
  refine ⟨?_, hless⟩
  rw [commaGoesOn, hcomma, List.drop_one, List.tail_cons, hbrace]
  rfl

theorem peek_of_token (hd : Derives (template allowAssign) true n (.token emit) ts us rs) :
    peek emit ts = true := (goes_of_begins Begins.token hd).1

/-! ## The methods are exact -/

theorem thisMember_exact : Exact (template allowAssign) n thisMember
    (op [".", "?."] * root + .ahead fun ts => !dottedName ts) := by
  refine Exact.wheneverAhead (Exact.next.andThen Exact.next) ?_
  intro ts us rs hd
  obtain ⟨vs, rs₁, rs₂, hdot, hname, -⟩ := derives_mul_iff.mp hd
  obtain ⟨t, rfl, ht⟩ := derives_token_iff.mp hdot
  have hroot := peek_of_token hname
  have hsame : ∀ t : Token, (rootOf t).isSome = (nameOf t).isSome := by
    intro t
    unfold rootOf nameOf
    split <;> rfl
  have hpeek : peek nameOf vs = peek rootOf vs := by
    unfold peek
    simp only [hsame]
  rw [dottedName, peek_cons, ht, List.drop_one, List.tail_cons, hpeek, hroot]
  rfl

section Methods

variable (hpipe : Exact (template allowAssign) n inner.pipe (.ref .pipe))

include hpipe

theorem pipe_between (p : String) :
    Exact (template allowAssign) n (inner.pipe.andThen (expectPunct p)) (.ref .pipe * punct p) :=
  hpipe.andThen Exact.next

theorem keyed_value :
    Exact (template allowAssign) n ((expectPunct ":").andThen inner.pipe) (punct ":" * .ref .pipe) :=
  Exact.next.andThen hpipe

theorem list_exact {close : String} (hclose : close ∉ ["!", "-", "+", "(", "[", "\x7b"]) :
    Exact (template allowAssign) n (list inner close) (.ref (.list close)) := by
  have hmore : Exact (template allowAssign) n
      (loop (peek (punctOf ",")) ((expectPunct ",").andThen inner.pipe))
      (.star (peek (punctOf ",")) (punct "," * .ref .pipe)) :=
    Exact.loop (Exact.next.andThen hpipe) fun _ _ _ => goes_of_begins begins_punct.mul
  refine Exact.name rfl (Exact.choose Exact.next (hpipe.andThen (hmore.andThen Exact.next)) ?_ ?_)
  · intro ts us rs hd
    exact (goes_of_begins begins_punct hd).1
  · intro ts us rs hd
    exact not_peek_of_begins (fun t => punctOf_of_opens hclose) begins_pipe.mul hd

/-- An entry is told by its first token, a key with a value from a shorthand by the colon. -/
theorem entry_exact : Exact (template allowAssign) n (entry inner) entryPhrase := by
  intro ts us rs
  have hvalue := keyed_value hpipe
  rw [entryPhrase, derives_add_iff, derives_add_iff]
  rcases ts with _ | ⟨⟨tok, line⟩, ts⟩
  · simp only [name, root, literal, derives_mul_iff, derives_token_iff]
    simp [entry]
  · rw [name, root, literal, derives_token_mul_cons, derives_token_mul_cons, derives_token_mul_cons]
    cases tok with
    | punct p => simp [entry, nameOf, rootOf, literalOf]
    | literal =>
        simp only [entry, nameOf, rootOf, literalOf, hvalue ts us rs]
        simp
    | ident key =>
        simp only [entry, nameOf, rootOf, literalOf, ← hvalue ts us, derives_ahead_iff]
        by_cases hcolon : peek (punctOf ":") ts = true
        · -- with a colon after it the name is a key, without one it is the whole entry
          rw [if_pos hcolon]
          simp only [Option.some.injEq, reduceCtorEq, false_and, exists_false, or_false]
          constructor
          · exact fun h => Or.inl ⟨[], rs, rfl, h, rfl⟩
          · rintro (⟨_, rs₂, rfl, h, rfl⟩ | ⟨_, _, -, ⟨rfl, hno, -⟩, -⟩)
            · exact h
            · simp [hcolon] at hno
        · rw [if_neg hcolon]
          simp only [Option.some.injEq, Prod.mk.injEq, reduceCtorEq, false_and, exists_false, or_false]
          constructor
          · rintro ⟨rfl, rfl⟩
            exact Or.inr ⟨_, [], rfl, ⟨rfl, by simpa using hcolon, rfl⟩, (List.append_nil _).symm⟩
          · rintro (⟨_, rs₂, rfl, h, rfl⟩ | ⟨_, _, rfl, ⟨rfl, -, rfl⟩, rfl⟩)
            · obtain ⟨hnext, -⟩ := goes_of_begins begins_punct.mul ((hvalue ts us rs).mp h)
              exact absurd hnext hcolon
            · exact ⟨rfl, (List.append_nil _).symm⟩

theorem object_exact : Exact (template allowAssign) n (object inner) (.ref .object) := by
  have hentry := entry_exact hpipe
  have hmore : Exact (template allowAssign) n
      (loop commaGoesOn ((expectPunct ",").andThen (entry inner)))
      (.star commaGoesOn (punct "," * entryPhrase)) :=
    Exact.loop (Exact.next.andThen hentry) fun _ _ _ => commaGoesOn_of_derives
  have hlast : Exact (template allowAssign) n
      (whenever (peek (punctOf ",")) (expectPunct ",")) (.opt (peek (punctOf ",")) (punct ",")) :=
    Exact.whenever Exact.next fun _ _ _ hd => (goes_of_begins begins_punct hd).1
  refine Exact.name rfl (Exact.choose Exact.next
    (hentry.andThen (hmore.andThen (hlast.andThen Exact.next))) ?_ ?_)
  · intro ts us rs hd
    exact (goes_of_begins begins_punct hd).1
  · intro ts us rs hd
    exact not_peek_of_begins (fun t => punctOf_of_entry) begins_entry.mul hd

theorem primary_exact : Exact (template allowAssign) n (primary inner) (.ref .primary) := by
  have hthis : Exact (template allowAssign) n thisMember _ := thisMember_exact
  have hparen := pipe_between hpipe ")"
  have hlist : Exact (template allowAssign) n (list inner "]") (.ref (.list "]")) :=
    list_exact hpipe (by simp)
  have hobject := object_exact hpipe
  refine Exact.name rfl ?_
  intro ts us rs
  show _ ↔ Derives _ _ _ (.token primaryOf + .token thisOf * _ + literal + punct "(" * _ +
    punct "[" * _ + punct "\x7b" * _) _ _ _
  simp only [derives_add_iff, literal, punct]
  rcases ts with _ | ⟨⟨tok, line⟩, ts⟩
  · simp only [derives_mul_iff, derives_token_iff]
    simp [primary]
  · simp only [derives_token_mul_cons, derives_token_cons]
    -- the first token decides which of the alternatives can apply
    cases tok with
    | literal => simp [primary, primaryOf, thisOf, literalOf, punctOf, eq_comm]
    | ident name =>
        by_cases hname : name = "this"
        · simp [primary, primaryOf, thisOf, literalOf, punctOf, hname, ← hthis ts us rs]
        · simp [primary, primaryOf, thisOf, literalOf, punctOf, hname]
    | punct p =>
        simp only [primary, primaryOf, thisOf, literalOf, punctOf, Tok.punct.injEq]
        by_cases hparenthesis : p = "("
        · simp [hparenthesis, hparen ts us rs, punct]
        · by_cases hbracket : p = "["
          · simp [hbracket, hlist ts us rs]
          · by_cases hbrace : p = "\x7b"
            · simp [hbrace, hobject ts us rs]
            · simp [hparenthesis, hbracket, hbrace]

omit hpipe in
theorem afterQuestionDot_exact : Exact (template allowAssign) n afterQuestionDot
    (name + .ahead (peek (opOf ["[", "("]))) := by
  refine Exact.choose Exact.next Exact.check (fun _ _ _ => peek_of_token) ?_
  intro ts us rs hd
  obtain ⟨rfl, hbracket, -⟩ := derives_ahead_iff.mp hd
  rcases ts with _ | ⟨t, ts⟩
  · rfl
  · cases htok : t.tok with
    | ident word => simp [opOf, htok] at hbracket
    | literal => simp [nameOf, htok]
    | punct p => simp [nameOf, htok]

theorem postfixOp_exact : Exact (template allowAssign) n (postfixOp inner) postfixPhrase := by
  have hindex := pipe_between hpipe "]"
  have hcall : Exact (template allowAssign) n (list inner ")") (.ref (.list ")")) :=
    list_exact hpipe (by simp)
  have hoptional : Exact (template allowAssign) n afterQuestionDot _ := afterQuestionDot_exact
  intro ts us rs
  simp only [postfixPhrase, derives_add_iff, punct]
  rcases ts with _ | ⟨⟨tok, line⟩, ts⟩
  · simp only [derives_mul_iff, derives_token_iff]
    simp [postfixOp]
  · simp only [derives_token_mul_cons, derives_token_cons]
    -- again the first token decides
    cases tok with
    | literal => simp [postfixOp, punctOf]
    | ident word => simp [postfixOp, punctOf]
    | punct p =>
        simp only [postfixOp, punctOf, Tok.punct.injEq]
        by_cases hdot : p = "."
        · have hname : Exact (template allowAssign) n (next nameOf) name := Exact.next
          simp [hdot, hname ts us rs]
        · by_cases hquestion : p = "?."
          · simp [hquestion, hoptional ts us rs]
          · by_cases hbracket : p = "["
            · simp [hbracket, hindex ts us rs, punct]
            · by_cases hparenthesis : p = "("
              · simp [hparenthesis, hcall ts us rs]
              · by_cases hbang : p = "!"
                · simp [hbang, eq_comm]
                · simp [hdot, hquestion, hbracket, hparenthesis, hbang]

omit hpipe in
/-- Every operator behind an operand is one of five. -/
theorem begins_postfix : Begins (template allowAssign) greedy n postfixPhrase
    fun t => (opOf [".", "?.", "[", "(", "!"] t).isSome := by
  have hone : ∀ p ∈ [".", "?.", "[", "(", "!"], ∀ t : Token, (punctOf p t).isSome →
      (opOf [".", "?.", "[", "(", "!"] t).isSome := by
    intro p hp t ht
    rw [opOf, punctOf_isSome.mp ht]
    simp only [if_pos hp]
    rfl
  refine Begins.add (Begins.add (Begins.add (Begins.add ?_ ?_) ?_) ?_) ?_
  · exact (begins_punct.mono (hone _ (by simp))).mul
  · exact (begins_punct.mono (hone _ (by simp))).mul
  · exact (begins_punct.mono (hone _ (by simp))).mul
  · exact (begins_punct.mono (hone _ (by simp))).mul
  · exact begins_punct.mono (hone _ (by simp))

theorem postfixChain_exact :
    Exact (template allowAssign) n (postfixChain inner) (.ref .postfix_) :=
  Exact.name rfl ((primary_exact hpipe).andThen
    (Exact.loop (postfixOp_exact hpipe) fun _ _ _ => goes_of_begins begins_postfix))

variable (hunary : Exact (template allowAssign) n inner.unary (.ref .unary))

include hunary

theorem unary_exact : Exact (template allowAssign) (n + 1) (unary inner) (.ref .unary) := by
  refine Exact.level rfl (Exact.chooseAhead (Exact.next.andThen hunary) (postfixChain_exact hpipe) ?_)
  intro ts us rs hd
  exact (goes_of_begins Begins.token.mul hd).1

omit hpipe in
theorem binary_exact : Exact (template allowAssign) n (binary inner) (.ref .binary) :=
  Exact.name rfl (hunary.andThen
    (Exact.loop (Exact.next.andThen hunary) fun _ _ _ => goes_of_begins Begins.token.mul))

theorem conditional_exact :
    Exact (template allowAssign) n (conditional inner) (.ref .conditional) := by
  have hbranches : Exact (template allowAssign) n
      ((expectPunct "?").andThen (inner.pipe.andThen ((expectPunct ":").andThen inner.pipe)))
      (punct "?" * (.ref .pipe * (punct ":" * .ref .pipe))) :=
    Exact.next.andThen (hpipe.andThen (keyed_value hpipe))
  refine Exact.name rfl ((binary_exact hunary).andThen (Exact.whenever hbranches ?_))
  intro ts us rs hd
  exact (goes_of_begins begins_punct.mul hd).1

theorem assign_exact :
    Exact (template allowAssign) n (assign allowAssign inner) (.ref .assign) := by
  have hconditional := conditional_exact hpipe hunary
  exact Exact.name rfl (hconditional.andThen
    (Exact.loop (Exact.next.andThen hconditional) fun _ _ _ => goes_of_begins Begins.token.mul))

theorem pipe_exact :
    Exact (template allowAssign) (n + 1) (pipe allowAssign inner) (.ref .pipe) := by
  have hassign := assign_exact hpipe hunary
  have hargs : Exact (template allowAssign) n
      (loop (peek (punctOf ":")) ((expectPunct ":").andThen (assign allowAssign inner)))
      (.star (peek (punctOf ":")) (punct ":" * .ref .assign)) :=
    Exact.loop (Exact.next.andThen hassign) fun _ _ _ => goes_of_begins begins_punct.mul
  refine Exact.level rfl (hassign.andThen (Exact.loop ?_ ?_))
  · exact Exact.next.andThen (Exact.next.andThen hargs)
  · intro ts us rs
    exact goes_of_begins begins_punct.mul

end Methods

/-- **All levels.** -/
theorem nested_exact (n : Nat) :
    Exact (template allowAssign) n (nested allowAssign n).pipe (.ref .pipe) ∧
      Exact (template allowAssign) n (nested allowAssign n).unary (.ref .unary) := by
  induction n with
  | zero => exact ⟨Exact.fail rfl, Exact.fail rfl⟩
  | succ n ih => exact ⟨pipe_exact ih.1 ih.2, unary_exact ih.1 ih.2⟩

/-! ## The entry points -/

theorem complete_eq_some_iff {r : Option (List Token × List Read)} :
    r.bind complete = some rs ↔ r = some ([], rs) := by
  rcases r with _ | ⟨us, rs'⟩
  · simp
  · simp only [Option.bind_some, complete, Option.some.injEq, Prod.mk.injEq]
    split
    · rename_i hus
      simp [hus]
    · rename_i hus
      simp [hus]

theorem parseBinding_eq_some_iff {toks : List Token} {reads : List Read} :
    parseBinding toks = some reads ↔ Binding true toks reads := by
  have hpipe := (@nested_exact false MAX_DEPTH).1 toks [] reads
  unfold parseBinding Binding
  split
  · rename_i hempty
    have hnone : ¬Derives (template false) true MAX_DEPTH (.ref .pipe) toks [] reads := by
      intro hd
      obtain ⟨t, ts, hts, -⟩ := begins_pipe toks [] reads hd
      rw [hempty] at hts
      cases hts
    constructor
    · intro h
      exact Or.inl ⟨hempty, (Option.some.inj h).symm⟩
    · rintro (⟨-, rfl⟩ | hd)
      · rfl
      · exact absurd hd hnone
  · rename_i hne
    rw [complete_eq_some_iff, hpipe]
    simp [hne]

theorem statement_exact : Exact (template true) MAX_DEPTH statement statementPhrase := by
  have hend : Exact (template true) MAX_DEPTH
      (choose (fun ts => !ts.isEmpty) (expectPunct ";") (check List.isEmpty))
      (punct ";" + .ahead List.isEmpty) := by
    refine Exact.choose Exact.next Exact.check ?_ ?_
    · intro ts us rs hd
      obtain ⟨t, rfl, -⟩ := derives_token_iff.mp hd
      rfl
    · intro ts us rs hd
      obtain ⟨rfl, hempty, -⟩ := derives_ahead_iff.mp hd
      simp [hempty]
  have hpipe := (@nested_exact true MAX_DEPTH).1
  refine Exact.choose Exact.next (hpipe.andThen hend) ?_ ?_
  · intro ts us rs
    exact peek_of_token
  · intro ts us rs hd
    exact not_peek_of_begins (fun t => punctOf_of_opens (by simp)) begins_pipe.mul hd

/-- A statement uses a token. -/
theorem begins_statement : Begins (template true) greedy n statementPhrase fun _ => True :=
  Begins.add (begins_punct.mono fun _ _ => trivial) (begins_pipe.mono fun _ _ => trivial).mul

theorem parseAction_eq_some_iff {toks : List Token} {reads : List Read} :
    parseAction toks = some reads ↔ Action true toks reads := by
  unfold parseAction
  rw [complete_eq_some_iff]
  refine Exact.loop statement_exact ?_ toks [] reads
  intro ts us rs hd
  obtain ⟨t, ts', rfl, -, hless⟩ := begins_statement ts us rs hd
  exact ⟨rfl, Nat.lt_succ_of_le hless⟩

/-- **The parser reads expressions exactly.** It accepts the token lists that derive from
the grammar with every optional and repeated part going on as far as the next tokens let
it, within the nesting bound, and its reads are the root positions of that derivation. -/
theorem parse_eq_some_iff (toks : List Token) (reads : List Read) :
    (parseBinding toks = some reads ↔ Binding true toks reads) ∧
      (parseAction toks = some reads ↔ Action true toks reads) :=
  ⟨parseBinding_eq_some_iff, parseAction_eq_some_iff⟩

/-- What is accepted derives from the grammar without regard to the next tokens. -/
theorem Binding.plain {toks : List Token} {reads : List Read} (h : Binding true toks reads) :
    Binding false toks reads :=
  h.imp_right Derives.plain

theorem Action.plain {toks : List Token} {reads : List Read} (h : Action true toks reads) :
    Action false toks reads :=
  Derives.plain h

/-! ## A pipe in a branch -/

theorem stops_plain {goes : List Token → Bool} : Stops false goes us :=
  fun h => absurd h Bool.false_ne_true

/-- An identifier alone is an operand, in the plain reading whatever follows. -/
theorem plain_operand {word : String} {line : Nat} (hthis : word ≠ "this")
    (hword : word ∉ ["typeof", "void"]) :
    Derives (template allowAssign) false (n + 1) (.ref .binary) (⟨.ident word, line⟩ :: us) us
      (read word line) := by
  have hprimary : Derives (template allowAssign) false n (.ref .primary)
      (⟨.ident word, line⟩ :: us) us (read word line) := by
    refine .name rfl (.left (.left (.left (.left (.left (.token ?_))))))
    simp [primaryOf, hthis]
  have hahead : (!peek prefixOf (⟨.ident word, line⟩ :: us)) = true := by
    simp [prefixOf, hword]
  have hunary : Derives (template allowAssign) false (n + 1) (.ref .unary)
      (⟨.ident word, line⟩ :: us) us ([] ++ (read word line ++ [])) :=
    .level rfl (.right (.seq (.ahead hahead) (.name rfl (.seq hprimary (.stop stops_plain)))))
  have hbinary : Derives (template allowAssign) false (n + 1) (.ref .binary)
      (⟨.ident word, line⟩ :: us) us ([] ++ (read word line ++ []) ++ []) :=
    .name rfl (.seq hunary (.stop stops_plain))
  simpa using hbinary

/-- An operand alone is as good as an assignment. -/
theorem plain_assign (h : Derives (template allowAssign) false n (.ref .binary) ts us rs) :
    Derives (template allowAssign) false n (.ref .assign) ts us rs := by
  have hassign : Derives (template allowAssign) false n (.ref .assign) ts us (rs ++ [] ++ []) :=
    .name rfl (.seq (.name rfl (.seq h (.omit_ stops_plain))) (.stop stops_plain))
  simpa using hassign

/-- `c ? a | f : b`. -/
def branchPipe : List Token :=
  [⟨.ident "c", 1⟩, ⟨.punct "?", 1⟩, ⟨.ident "a", 1⟩, ⟨.punct "|", 1⟩, ⟨.ident "f", 1⟩,
    ⟨.punct ":", 1⟩, ⟨.ident "b", 1⟩]

theorem branchPipe_plain : Binding false branchPipe [("c", 1), ("a", 1), ("b", 1)] := by
  -- the pipe `a | f` ends in front of the colon
  have hfilter : Derives (template false) false 62
      (punct "|" * (name * .star (peek (punctOf ":")) (punct ":" * .ref .assign)))
      [⟨.punct "|", 1⟩, ⟨.ident "f", 1⟩, ⟨.punct ":", 1⟩, ⟨.ident "b", 1⟩]
      [⟨.punct ":", 1⟩, ⟨.ident "b", 1⟩] ([] ++ ([] ++ [])) :=
    .seq (.token rfl) (.seq (.token rfl) (.stop stops_plain))
  have hfirst : Derives (template false) false 63 (.ref .pipe)
      [⟨.ident "a", 1⟩, ⟨.punct "|", 1⟩, ⟨.ident "f", 1⟩, ⟨.punct ":", 1⟩, ⟨.ident "b", 1⟩]
      [⟨.punct ":", 1⟩, ⟨.ident "b", 1⟩] [("a", 1)] :=
    .level rfl (.seq (plain_assign (plain_operand (by decide) (by decide)))
      (.more hfilter (.stop stops_plain)))
  have hsecond : Derives (template false) false 63 (.ref .pipe) [⟨.ident "b", 1⟩] [] [("b", 1)] :=
    .level rfl (.seq (plain_assign (plain_operand (by decide) (by decide))) (.stop stops_plain))
  have hbranches : Derives (template false) false 63
      (punct "?" * (.ref .pipe * (punct ":" * .ref .pipe))) branchPipe.tail []
      ([] ++ ([("a", 1)] ++ ([] ++ [("b", 1)]))) :=
    .seq (.token rfl) (.seq hfirst (.seq (.token rfl) hsecond))
  have hconditional : Derives (template false) false 63 (.ref .conditional) branchPipe []
      [("c", 1), ("a", 1), ("b", 1)] :=
    .name rfl (.seq (plain_operand (by decide) (by decide)) (.take hbranches))
  have hassign : Derives (template false) false 63 (.ref .assign) branchPipe []
      [("c", 1), ("a", 1), ("b", 1)] :=
    .name rfl (.seq hconditional (.stop stops_plain))
  exact Or.inr (.level rfl (.seq hassign (.stop stops_plain)))

/-- The parser gives the colon to the pipe and refuses what derives from the grammar. -/
theorem branchPipe_refused :
    ¬∀ toks reads, parseBinding toks = some reads ↔ Binding false toks reads := by
  intro hclaim
  have haccepted := (hclaim branchPipe _).mpr branchPipe_plain
  have hrefused : parseBinding branchPipe = none := by decide +kernel
  rw [hrefused] at haccepted
  cases haccepted

end Devscout.Template
