/-
# Devscout.CSharp.Condition -- the grammar of conditions, and that evaluation is exact for it

The condition of an `#if` or `#elif` is evaluated while it is parsed: one method a
precedence level, each returning the truth value of what it read. The grammar is C#'s
own, given here by its derivation trees. A tree has the tokens it derives and a truth
value in a symbol set, and nothing of it mentions the parser. Evaluation gives a value
exactly when the tokens of the condition have a tree, and then it is that tree's.
-/

import Devscout.CSharp.Preproc
import Devscout.Lib.Precedence

namespace Devscout.Preproc

open Lib Precedence

/-! ## The grammar -/

/-- The nonterminals, the loosest first. -/
inductive Level where
  | or
  | and
  | equality
  | unary
  | primary

/-- The derivation trees of the condition grammar, one constructor a production. -/
inductive Cond : Level → Type where
  | or (a : Cond .or) (b : Cond .and) : Cond .or
  | ofAnd (a : Cond .and) : Cond .or
  | and (a : Cond .and) (b : Cond .equality) : Cond .and
  | ofEquality (a : Cond .equality) : Cond .and
  | equal (a : Cond .equality) (b : Cond .unary) : Cond .equality
  | notEqual (a : Cond .equality) (b : Cond .unary) : Cond .equality
  | ofUnary (a : Cond .unary) : Cond .equality
  | not (a : Cond .unary) : Cond .unary
  | ofPrimary (a : Cond .primary) : Cond .unary
  | paren (a : Cond .or) : Cond .primary
  | true_ : Cond .primary
  | false_ : Cond .primary
  | symbol (name : Bytes) : Cond .primary

namespace Cond

/-- The tokens a tree derives. -/
def tokens {l : Level} : Cond l → List Tok
  | .or a b => a.tokens ++ .orOr :: b.tokens
  | .and a b => a.tokens ++ .andAnd :: b.tokens
  | .equal a b => a.tokens ++ .eqEq :: b.tokens
  | .notEqual a b => a.tokens ++ .notEq :: b.tokens
  | .not a => .not :: a.tokens
  | .paren a => .lParen :: a.tokens ++ [.rParen]
  | .true_ => [.true_]
  | .false_ => [.false_]
  | .symbol name => [.ident name]
  | .ofAnd a => a.tokens
  | .ofEquality a => a.tokens
  | .ofUnary a => a.tokens
  | .ofPrimary a => a.tokens

/-- The truth value of a tree, a symbol being true when it is in the set. -/
def value (symbols : Symbols) {l : Level} : Cond l → Bool
  | .or a b => a.value symbols || b.value symbols
  | .and a b => a.value symbols && b.value symbols
  | .equal a b => a.value symbols == b.value symbols
  | .notEqual a b => a.value symbols != b.value symbols
  | .not a => !a.value symbols
  | .paren a => a.value symbols
  | .true_ => true
  | .false_ => false
  | .symbol name => decide (name ∈ symbols)
  | .ofAnd a => a.value symbols
  | .ofEquality a => a.value symbols
  | .ofUnary a => a.value symbols
  | .ofPrimary a => a.value symbols

end Cond

/-- The token runs a nonterminal derives, with their truth values. -/
def Phrase (symbols : Symbols) (l : Level) : Phrases Tok Bool :=
  fun ts v => ∃ e : Cond l, e.tokens = ts ∧ e.value symbols = v

/-! ## The levels are chains -/

def orOp : Operators Tok Bool
  | .orOr => some fun v w => w || v
  | _ => none

def andOp : Operators Tok Bool
  | .andAnd => some fun v w => w && v
  | _ => none

def equalityOp : Operators Tok Bool
  | .eqEq => some fun v w => v == w
  | .notEq => some fun v w => v != w
  | _ => none

theorem chain_or (symbols : Symbols) :
    Chain orOp (Phrase symbols .and) = Phrase symbols .or := by
  refine chain_eq (fun us v ⟨e, htokens, hvalue⟩ => ⟨.ofAnd e, htokens, hvalue⟩) ?_ ?_
  · rintro us ts t f v w ⟨a, rfl, rfl⟩ hop ⟨b, rfl, rfl⟩
    cases t <;> cases hop
    -- the code has the operand just read on the left
    exact ⟨.or a b, rfl, Bool.or_comm ..⟩
  · rintro _ _ ⟨e, rfl, rfl⟩
    suffices h : ∀ {l : Level} (e : Cond l) (hl : l = .or),
        Chain orOp (Phrase symbols .and) e.tokens (e.value symbols) from h e rfl
    intro l e hl
    induction e with
    | or a b iha _ =>
        show Chain _ _ (a.tokens ++ Tok.orOr :: b.tokens) (a.value symbols || b.value symbols)
        rw [Bool.or_comm]
        exact (iha rfl).snoc (t := Tok.orOr) rfl ⟨b, rfl, rfl⟩
    | ofAnd a _ => exact .one ⟨a, rfl, rfl⟩
    | _ => cases hl

theorem chain_and (symbols : Symbols) :
    Chain andOp (Phrase symbols .equality) = Phrase symbols .and := by
  refine chain_eq (fun us v ⟨e, htokens, hvalue⟩ => ⟨.ofEquality e, htokens, hvalue⟩) ?_ ?_
  · rintro us ts t f v w ⟨a, rfl, rfl⟩ hop ⟨b, rfl, rfl⟩
    cases t <;> cases hop
    exact ⟨.and a b, rfl, Bool.and_comm ..⟩
  · rintro _ _ ⟨e, rfl, rfl⟩
    suffices h : ∀ {l : Level} (e : Cond l) (hl : l = .and),
        Chain andOp (Phrase symbols .equality) e.tokens (e.value symbols) from h e rfl
    intro l e hl
    induction e with
    | and a b iha _ =>
        show Chain _ _ (a.tokens ++ Tok.andAnd :: b.tokens) (a.value symbols && b.value symbols)
        rw [Bool.and_comm]
        exact (iha rfl).snoc (t := Tok.andAnd) rfl ⟨b, rfl, rfl⟩
    | ofEquality a _ => exact .one ⟨a, rfl, rfl⟩
    | _ => cases hl

theorem chain_equality (symbols : Symbols) :
    Chain equalityOp (Phrase symbols .unary) = Phrase symbols .equality := by
  refine chain_eq (fun us v ⟨e, htokens, hvalue⟩ => ⟨.ofUnary e, htokens, hvalue⟩) ?_ ?_
  · rintro us ts t f v w ⟨a, rfl, rfl⟩ hop ⟨b, rfl, rfl⟩
    cases t <;> cases hop
    · exact ⟨.equal a b, rfl, rfl⟩
    · exact ⟨.notEqual a b, rfl, rfl⟩
  · rintro _ _ ⟨e, rfl, rfl⟩
    suffices h : ∀ {l : Level} (e : Cond l) (hl : l = .equality),
        Chain equalityOp (Phrase symbols .unary) e.tokens (e.value symbols) from h e rfl
    intro l e hl
    induction e with
    | equal a b iha _ => exact (iha rfl).snoc (t := Tok.eqEq) rfl ⟨b, rfl, rfl⟩
    | notEqual a b iha _ => exact (iha rfl).snoc (t := Tok.notEq) rfl ⟨b, rfl, rfl⟩
    | ofUnary a _ => exact .one ⟨a, rfl, rfl⟩
    | _ => cases hl

/-! ## The methods as readers -/

/-- What a method returned, without the bound on what it left. -/
def unbound {bound : List Tok → Prop} (r : Option (Bool × { rest : List Tok // bound rest })) :
    Option (Bool × List Tok) :=
  r.map fun x => (x.1, x.2.1)

def readOr (symbols : Symbols) : Reader Tok Bool := fun ts => unbound (parseOr symbols ts)
def readAnd (symbols : Symbols) : Reader Tok Bool := fun ts => unbound (parseAnd symbols ts)
def readEq (symbols : Symbols) : Reader Tok Bool := fun ts => unbound (parseEq symbols ts)
def readUnary (symbols : Symbols) : Reader Tok Bool := fun ts => unbound (parseUnary symbols ts)
def readPrimary (symbols : Symbols) : Reader Tok Bool := fun ts => unbound (parsePrimary symbols ts)

def loopOr (symbols : Symbols) (v : Bool) : Reader Tok Bool := fun ts => unbound (orChain symbols v ts)
def loopAnd (symbols : Symbols) (v : Bool) : Reader Tok Bool := fun ts => unbound (andChain symbols v ts)
def loopEq (symbols : Symbols) (v : Bool) : Reader Tok Bool := fun ts => unbound (eqChain symbols v ts)

theorem readOr_eq (symbols : Symbols) :
    readOr symbols = fun ts => (readAnd symbols ts).bind fun x => loopOr symbols x.1 x.2 := by
  funext ts
  simp only [readOr, readAnd, loopOr, unbound, parseOr]
  cases parseAnd symbols ts with
  | none => rfl
  | some x =>
      simp only [Option.map_some, Option.bind_some]
      cases orChain symbols x.1 x.2.1 <;> rfl

theorem readAnd_eq (symbols : Symbols) :
    readAnd symbols = fun ts => (readEq symbols ts).bind fun x => loopAnd symbols x.1 x.2 := by
  funext ts
  simp only [readAnd, readEq, loopAnd, unbound, parseAnd]
  cases parseEq symbols ts with
  | none => rfl
  | some x =>
      simp only [Option.map_some, Option.bind_some]
      cases andChain symbols x.1 x.2.1 <;> rfl

theorem readEq_eq (symbols : Symbols) :
    readEq symbols = fun ts => (readUnary symbols ts).bind fun x => loopEq symbols x.1 x.2 := by
  funext ts
  simp only [readEq, readUnary, loopEq, unbound, parseEq]
  cases parseUnary symbols ts with
  | none => rfl
  | some x =>
      simp only [Option.map_some, Option.bind_some]
      cases eqChain symbols x.1 x.2.1 <;> rfl

theorem isLoop_or (symbols : Symbols) : IsLoop orOp (readAnd symbols) (loopOr symbols) where
  more := by
    intro t f ts v hop
    cases t <;> cases hop
    simp only [loopOr, readAnd, unbound]
    rw [orChain]
    cases parseAnd symbols ts with
    | none => rfl
    | some x =>
        simp only [Option.map_some, Option.bind_some]
        cases orChain symbols (x.1 || v) x.2.1 <;> rfl
  stop := by
    intro ts v hends
    cases ts with
    | nil => simp [loopOr, unbound, orChain]
    | cons t ts =>
        cases t <;> simp_all [loopOr, unbound, orChain, Ends, orOp]

theorem isLoop_and (symbols : Symbols) : IsLoop andOp (readEq symbols) (loopAnd symbols) where
  more := by
    intro t f ts v hop
    cases t <;> cases hop
    simp only [loopAnd, readEq, unbound]
    rw [andChain]
    cases parseEq symbols ts with
    | none => rfl
    | some x =>
        simp only [Option.map_some, Option.bind_some]
        cases andChain symbols (x.1 && v) x.2.1 <;> rfl
  stop := by
    intro ts v hends
    cases ts with
    | nil => simp [loopAnd, unbound, andChain]
    | cons t ts =>
        cases t <;> simp_all [loopAnd, unbound, andChain, Ends, andOp]

theorem isLoop_eq (symbols : Symbols) : IsLoop equalityOp (readUnary symbols) (loopEq symbols) where
  more := by
    intro t f ts v hop
    cases t <;> cases hop
    · simp only [loopEq, readUnary, unbound]
      rw [eqChain]
      cases parseUnary symbols ts with
      | none => rfl
      | some x =>
          simp only [Option.map_some, Option.bind_some]
          cases eqChain symbols (v == x.1) x.2.1 <;> rfl
    · simp only [loopEq, readUnary, unbound]
      rw [eqChain]
      cases parseUnary symbols ts with
      | none => rfl
      | some x =>
          simp only [Option.map_some, Option.bind_some]
          cases eqChain symbols (v != x.1) x.2.1 <;> rfl
  stop := by
    intro ts v hends
    cases ts with
    | nil => simp [loopEq, unbound, eqChain]
    | cons t ts =>
        cases t <;> simp_all [loopEq, unbound, eqChain, Ends, equalityOp]

/-! ## Exactness -/

theorem readUnary_not (symbols : Symbols) (ts : List Tok) :
    readUnary symbols (.not :: ts) = (readUnary symbols ts).map fun x => (!x.1, x.2) := by
  simp only [readUnary, unbound]
  rw [parseUnary]
  cases parseUnary symbols ts <;> rfl

theorem readUnary_ofPrimary (symbols : Symbols) {ts : List Tok} (h : ts.head? ≠ some .not) :
    readUnary symbols ts = readPrimary symbols ts := by
  cases ts with
  | nil => simp [readUnary, readPrimary, parseUnary]
  | cons t ts => cases t <;> simp_all [readUnary, readPrimary, parseUnary]

theorem readPrimary_paren (symbols : Symbols) (ts : List Tok) :
    readPrimary symbols (.lParen :: ts) = match readOr symbols ts with
      | some (v, .rParen :: rest) => some (v, rest)
      | _ => none := by
  simp only [readPrimary, readOr, unbound]
  rw [parsePrimary]
  rcases parseOr symbols ts with _ | ⟨v, ⟨_ | ⟨t, rest⟩, h⟩⟩
  · rfl
  · rfl
  · cases t <;> rfl

/-- The operators that carry an expression further. -/
def carries (t : Tok) : Bool :=
  ((false || (equalityOp t).isSome) || (andOp t).isSome) || (orOp t).isSome

section Exactness

variable {symbols : Symbols} {n : Nat}

/-- A primary is read exactly when what stands in its parentheses is. -/
theorem exact_primary (hor : ∀ m < n, Exact m (Phrase symbols .or) (readOr symbols) carries) :
    Exact n (Phrase symbols .primary) (readPrimary symbols) fun _ => false := by
  intro ts hlen v rest
  constructor
  · intro h
    have hends : Ends (fun _ : Tok => false) rest := fun _ _ => rfl
    cases ts with
    | nil => simp [readPrimary, unbound, parsePrimary] at h
    | cons t ts =>
        cases t with
        | lParen =>
            -- inside the parentheses there is one token less, and the hypothesis applies
            rw [readPrimary_paren] at h
            split at h
            · rename_i w rest' hread
              cases h
              have hlt : ts.length < n := Nat.lt_of_succ_le hlen
              obtain ⟨phrase, rfl, ⟨e, rfl, rfl⟩, -⟩ := (hor _ hlt ts le_rfl _ _).mp hread
              exact ⟨(Cond.paren e).tokens, by simp [Cond.tokens], ⟨.paren e, rfl, rfl⟩, hends⟩
            · cases h
        | true_ =>
            obtain ⟨rfl, rfl⟩ : true = v ∧ ts = rest := by
              simpa [readPrimary, unbound, parsePrimary] using h
            exact ⟨_, rfl, ⟨.true_, rfl, rfl⟩, hends⟩
        | false_ =>
            obtain ⟨rfl, rfl⟩ : false = v ∧ ts = rest := by
              simpa [readPrimary, unbound, parsePrimary] using h
            exact ⟨_, rfl, ⟨.false_, rfl, rfl⟩, hends⟩
        | ident name =>
            obtain ⟨hv, rfl⟩ : symbols.contains name = v ∧ ts = rest := by
              simpa only [readPrimary, unbound, parsePrimary, Option.map_some, Option.some.injEq,
                Prod.mk.injEq] using h
            refine ⟨_, rfl, ⟨.symbol name, rfl, ?_⟩, hends⟩
            rw [← hv, List.contains_eq_mem]
            rfl
        | _ => simp [readPrimary, unbound, parsePrimary] at h
  · rintro ⟨phrase, rfl, ⟨e, rfl, rfl⟩, -⟩
    cases e with
    | paren a =>
        have hshort : (a.tokens ++ Tok.rParen :: rest).length < n := by
          simp only [Cond.tokens, List.cons_append, List.append_assoc, List.nil_append,
            List.length_cons] at hlen
          omega
        have hread : readOr symbols (a.tokens ++ Tok.rParen :: rest) =
            some (a.value symbols, Tok.rParen :: rest) :=
          (hor _ hshort _ le_rfl _ _).mpr ⟨_, rfl, ⟨a, rfl, rfl⟩, ends_cons_iff.mpr rfl⟩
        show readPrimary symbols (Tok.lParen :: a.tokens ++ [Tok.rParen] ++ rest) = _
        rw [List.cons_append, List.cons_append, List.append_assoc, readPrimary_paren]
        show (match readOr symbols (a.tokens ++ Tok.rParen :: rest) with
          | some (v, .rParen :: rest) => some (v, rest)
          | _ => none) = _
        rw [hread]
        rfl
    | true_ => simp [Cond.tokens, Cond.value, readPrimary, unbound, parsePrimary]
    | false_ => simp [Cond.tokens, Cond.value, readPrimary, unbound, parsePrimary]
    | symbol name => simp [Cond.tokens, Cond.value, readPrimary, unbound, parsePrimary]

theorem exact_unary
    (hprimary : Exact n (Phrase symbols .primary) (readPrimary symbols) fun _ => false) :
    Exact n (Phrase symbols .unary) (readUnary symbols) fun _ => false := by
  intro ts hlen v rest
  have hends : Ends (fun _ : Tok => false) rest := fun _ _ => rfl
  constructor
  · intro h
    induction ts generalizing v with
    | nil =>
        rw [readUnary_ofPrimary symbols (by simp)] at h
        obtain ⟨phrase, heq, ⟨e, rfl, rfl⟩, -⟩ := (hprimary _ hlen _ _).mp h
        exact ⟨_, heq, ⟨.ofPrimary e, rfl, rfl⟩, hends⟩
    | cons t ts ih =>
        by_cases ht : t = .not
        · subst ht
          rw [readUnary_not, Option.map_eq_some_iff] at h
          obtain ⟨⟨w, rest'⟩, hread, hx⟩ := h
          cases hx
          obtain ⟨phrase, rfl, ⟨e, rfl, rfl⟩, -⟩ := ih (Nat.le_of_succ_le hlen) w hread
          exact ⟨_, rfl, ⟨.not e, rfl, rfl⟩, hends⟩
        · rw [readUnary_ofPrimary symbols (by simpa using ht)] at h
          obtain ⟨phrase, heq, ⟨e, rfl, rfl⟩, -⟩ := (hprimary _ hlen _ _).mp h
          exact ⟨_, heq, ⟨.ofPrimary e, rfl, rfl⟩, hends⟩
  · rintro ⟨phrase, rfl, ⟨e, rfl, rfl⟩, -⟩
    suffices h : ∀ {l : Level} (e : Cond l) (hl : l = .unary), (e.tokens ++ rest).length ≤ n →
        readUnary symbols (e.tokens ++ rest) = some (e.value symbols, rest) from h e rfl hlen
    intro l e hl hlen
    induction e with
    | not a ih =>
        show readUnary symbols (Tok.not :: (a.tokens ++ rest)) = _
        rw [readUnary_not, ih rfl (Nat.le_of_succ_le hlen)]
        rfl
    | ofPrimary a _ =>
        have hread : readPrimary symbols (a.tokens ++ rest) = some (a.value symbols, rest) :=
          (hprimary _ hlen _ _).mpr ⟨_, rfl, ⟨a, rfl, rfl⟩, hends⟩
        -- no primary begins with `!`, so the method takes its other branch
        have hhead : (a.tokens ++ rest).head? ≠ some .not := by
          cases a <;> simp [Cond.tokens]
        show readUnary symbols (a.tokens ++ rest) = some (a.value symbols, rest)
        rw [readUnary_ofPrimary symbols hhead, hread]
    | _ => cases hl

/-- Each operator belongs to one level, so the tighter ones are loops of exact readers. -/
theorem exact_or (symbols : Symbols) (n : Nat) :
    Exact n (Phrase symbols .or) (readOr symbols) carries := by
  induction n using Nat.strong_induction_on with
  | h n ih =>
      -- each level in turn: its operators do not carry the phrases of the tighter one
      have hunary := exact_unary (exact_primary ih)
      have hequality := hunary.chain (isLoop_eq symbols) fun _ _ => rfl
      rw [chain_equality, ← readEq_eq] at hequality
      have hand := hequality.chain (isLoop_and symbols) (by
        intro t ht
        cases t <;> simp_all [andOp, equalityOp])
      rw [chain_and, ← readAnd_eq] at hand
      have hor := hand.chain (isLoop_or symbols) (by
        intro t ht
        cases t <;> simp_all [orOp, andOp, equalityOp])
      rw [chain_or, ← readOr_eq] at hor
      exact hor

end Exactness

/-- **Evaluation is exact.** A condition evaluates to a truth value exactly when its tokens,
all of them, are derived by a tree of the grammar with that value; otherwise it has none. -/
theorem eval_exact (condition : Bytes) (symbols : Symbols) :
    (∀ v, eval condition symbols = some v ↔
      ∃ e : Cond .or, tokenize condition = some e.tokens ∧ e.value symbols = v) ∧
    (eval condition symbols = none ↔ ¬∃ e : Cond .or, tokenize condition = some e.tokens) := by
  have hsome : ∀ v, eval condition symbols = some v ↔
      ∃ e : Cond .or, tokenize condition = some e.tokens ∧ e.value symbols = v := by
    intro v
    cases htokens : tokenize condition with
    | none => simp [eval, htokens]
    | some toks =>
        -- `eval` wants no tokens left; an empty condition has no tree either
        have hread : eval condition symbols = some v ↔ readOr symbols toks = some (v, []) := by
          simp only [eval, htokens, readOr, unbound]
          cases toks with
          | nil => simp [parseOr, parseAnd, parseEq, parseUnary, parsePrimary]
          | cons t ts =>
              rcases parseOr symbols (t :: ts) with _ | ⟨w, ⟨_ | ⟨u, rest⟩, h⟩⟩ <;> simp
        rw [hread, exact_or symbols toks.length toks le_rfl v []]
        constructor
        · rintro ⟨phrase, rfl, ⟨e, rfl, rfl⟩, -⟩
          exact ⟨e, by simp, rfl⟩
        · rintro ⟨e, he, rfl⟩
          cases he
          exact ⟨e.tokens, by simp, ⟨e, rfl, rfl⟩, ends_nil _⟩
  refine ⟨hsome, ?_⟩
  constructor
  · rintro hnone ⟨e, he⟩
    have := (hsome (e.value symbols)).mpr ⟨e, he, rfl⟩
    rw [hnone] at this
    cases this
  · intro hno
    cases hv : eval condition symbols with
    | none => rfl
    | some v =>
        obtain ⟨e, he, -⟩ := (hsome v).mp hv
        exact absurd ⟨e, he⟩ hno

end Devscout.Preproc
