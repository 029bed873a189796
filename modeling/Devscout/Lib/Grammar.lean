/-
# Devscout.Lib.Grammar -- grammars, their derivations, and recursive descent

A grammar is written as rules over tokens: a token with what it is read as, sequence,
choice, optional and repeated parts, and names of rules. A derivation takes a phrase off
the front of a token list and collects the readings of its tokens in order. It has two
readings. The plain one is context free: an optional part may be left out and a
repetition may end anywhere. In the greedy one they end only where the next tokens do
not let them go on. Names marked deep are counted, so that a derivation has so many
nested levels at most.

A descending parser is a partial function from the tokens in front of it to the tokens
it leaves and its readings. It is exact for a rule when the greedy derivations are its
graph; the lemmas say that sequence, choice, options and loops of exact parsers are
exact, so a parser is proved along its own structure.
-/

import Mathlib

namespace Devscout.Lib

/-- The right side of a rule over tokens `τ`, readings `ρ` and rule names `N`. Optional
and repeated parts carry the test of the next tokens that lets them go on. -/
inductive Gram (τ ρ N : Type) where
  | token (emit : τ → Option (List ρ))
  | ahead (ok : List τ → Bool)
  | seq (a b : Gram τ ρ N)
  | alt (a b : Gram τ ρ N)
  | opt (goes : List τ → Bool) (a : Gram τ ρ N)
  | star (goes : List τ → Bool) (a : Gram τ ρ N)
  | ref (X : N)

/-- The rules, and which names count as a level. -/
structure Grammar (τ ρ N : Type) where
  rule : N → Gram τ ρ N
  deep : N → Bool

namespace Grammar

variable {τ ρ N : Type}

instance : Mul (Gram τ ρ N) := ⟨Gram.seq⟩
instance : Add (Gram τ ρ N) := ⟨Gram.alt⟩

/-- An optional or repeated part may end here. -/
def Stops (greedy : Bool) (goes : List τ → Bool) (us : List τ) : Prop :=
  greedy = true → goes us = false

/-- `Derives G greedy n g ts us rs`: with at most `n` nested levels, `ts` is a phrase of `g`
followed by `us`, and its readings are `rs`. -/
inductive Derives (G : Grammar τ ρ N) (greedy : Bool) :
    Nat → Gram τ ρ N → List τ → List τ → List ρ → Prop
  | token {n emit t us rs} : emit t = some rs → Derives G greedy n (.token emit) (t :: us) us rs
  | ahead {n ok us} : ok us = true → Derives G greedy n (.ahead ok) us us []
  | seq {n a b ts vs us rs₁ rs₂} : Derives G greedy n a ts vs rs₁ →
      Derives G greedy n b vs us rs₂ → Derives G greedy n (.seq a b) ts us (rs₁ ++ rs₂)
  | left {n a b ts us rs} : Derives G greedy n a ts us rs → Derives G greedy n (.alt a b) ts us rs
  | right {n a b ts us rs} : Derives G greedy n b ts us rs → Derives G greedy n (.alt a b) ts us rs
  | omit_ {n goes a us} : Stops greedy goes us → Derives G greedy n (.opt goes a) us us []
  | take {n goes a ts us rs} : Derives G greedy n a ts us rs → Derives G greedy n (.opt goes a) ts us rs
  | stop {n goes a us} : Stops greedy goes us → Derives G greedy n (.star goes a) us us []
  | more {n goes a ts vs us rs₁ rs₂} : Derives G greedy n a ts vs rs₁ →
      Derives G greedy n (.star goes a) vs us rs₂ →
      Derives G greedy n (.star goes a) ts us (rs₁ ++ rs₂)
  | name {n X ts us rs} : G.deep X = false → Derives G greedy n (G.rule X) ts us rs →
      Derives G greedy n (.ref X) ts us rs
  | level {n X ts us rs} : G.deep X = true → Derives G greedy n (G.rule X) ts us rs →
      Derives G greedy (n + 1) (.ref X) ts us rs

variable {G : Grammar τ ρ N} {greedy : Bool} {n : Nat} {a b g : Gram τ ρ N} {ts vs us : List τ}
  {rs : List ρ} {emit : τ → Option (List ρ)} {goes ok : List τ → Bool} {X : N}

/-! ## One step of a derivation -/

theorem derives_token_iff :
    Derives G greedy n (.token emit) ts us rs ↔ ∃ t, ts = t :: us ∧ emit t = some rs := by
  constructor
  · rintro ⟨⟩
    rename_i t h
    exact ⟨t, rfl, h⟩
  · rintro ⟨t, rfl, h⟩
    exact .token h

theorem derives_ahead_iff :
    Derives G greedy n (.ahead ok) ts us rs ↔ ts = us ∧ ok us = true ∧ rs = [] := by
  constructor
  · rintro ⟨⟩
    rename_i h
    exact ⟨rfl, h, rfl⟩
  · rintro ⟨rfl, h, rfl⟩
    exact .ahead h

theorem derives_mul_iff :
    Derives G greedy n (a * b) ts us rs ↔ ∃ vs rs₁ rs₂, Derives G greedy n a ts vs rs₁ ∧
      Derives G greedy n b vs us rs₂ ∧ rs = rs₁ ++ rs₂ := by
  constructor
  · intro h
    cases h with
    | seq ha hb => exact ⟨_, _, _, ha, hb, rfl⟩
  · rintro ⟨vs, rs₁, rs₂, ha, hb, rfl⟩
    exact .seq ha hb

theorem derives_add_iff :
    Derives G greedy n (a + b) ts us rs ↔
      Derives G greedy n a ts us rs ∨ Derives G greedy n b ts us rs := by
  constructor
  · intro h
    cases h with
    | left ha => exact Or.inl ha
    | right hb => exact Or.inr hb
  · rintro (ha | hb)
    · exact .left ha
    · exact .right hb

theorem derives_token_cons {t : τ} :
    Derives G greedy n (.token emit) (t :: ts) us rs ↔ ts = us ∧ emit t = some rs := by
  rw [derives_token_iff]
  constructor
  · rintro ⟨t', heq, ht⟩
    obtain ⟨rfl, rfl⟩ := List.cons.inj heq
    exact ⟨rfl, ht⟩
  · rintro ⟨rfl, ht⟩
    exact ⟨t, rfl, ht⟩

theorem derives_token_mul_cons {t : τ} :
    Derives G greedy n (.token emit * b) (t :: ts) us rs ↔
      ∃ rs₁ rs₂, emit t = some rs₁ ∧ Derives G greedy n b ts us rs₂ ∧ rs = rs₁ ++ rs₂ := by
  rw [derives_mul_iff]
  constructor
  · rintro ⟨vs, rs₁, rs₂, ha, hb, rfl⟩
    obtain ⟨rfl, ht⟩ := derives_token_cons.mp ha
    exact ⟨rs₁, rs₂, ht, hb, rfl⟩
  · rintro ⟨rs₁, rs₂, ht, hb, rfl⟩
    exact ⟨ts, rs₁, rs₂, .token ht, hb, rfl⟩

theorem derives_opt_iff :
    Derives G greedy n (.opt goes a) ts us rs ↔
      Derives G greedy n a ts us rs ∨ ts = us ∧ Stops greedy goes us ∧ rs = [] := by
  constructor
  · intro h
    cases h with
    | omit_ hstop => exact Or.inr ⟨rfl, hstop, rfl⟩
    | take ha => exact Or.inl ha
  · rintro (ha | ⟨rfl, hstop, rfl⟩)
    · exact .take ha
    · exact .omit_ hstop

theorem derives_star_iff :
    Derives G greedy n (.star goes a) ts us rs ↔
      (∃ vs rs₁ rs₂, Derives G greedy n a ts vs rs₁ ∧
        Derives G greedy n (.star goes a) vs us rs₂ ∧ rs = rs₁ ++ rs₂) ∨
      ts = us ∧ Stops greedy goes us ∧ rs = [] := by
  constructor
  · intro h
    cases h with
    | stop hstop => exact Or.inr ⟨rfl, hstop, rfl⟩
    | more ha hmore => exact Or.inl ⟨_, _, _, ha, hmore, rfl⟩
  · rintro (⟨vs, rs₁, rs₂, ha, hmore, rfl⟩ | ⟨rfl, hstop, rfl⟩)
    · exact .more ha hmore
    · exact .stop hstop

theorem derives_name_iff (hX : G.deep X = false) :
    Derives G greedy n (.ref X) ts us rs ↔ Derives G greedy n (G.rule X) ts us rs := by
  constructor
  · intro h
    cases h with
    | name _ h => exact h
    | level hdeep _ => simp [hX] at hdeep
  · exact .name hX

theorem derives_level_iff (hX : G.deep X = true) :
    Derives G greedy (n + 1) (.ref X) ts us rs ↔ Derives G greedy n (G.rule X) ts us rs := by
  constructor
  · intro h
    cases h with
    | name hname _ => simp [hX] at hname
    | level _ h => exact h
  · exact .level hX

theorem not_derives_level_zero (hX : G.deep X = true) : ¬Derives G greedy 0 (.ref X) ts us rs := by
  intro h
  cases h with
  | name hname _ => simp [hX] at hname

/-! ## All derivations -/

/-- A greedy derivation is a derivation. -/
theorem Derives.plain (h : Derives G true n g ts us rs) : Derives G false n g ts us rs := by
  have hstops : ∀ (goes : List τ → Bool) (us : List τ), Stops false goes us :=
    fun _ _ hgreedy => absurd hgreedy Bool.false_ne_true
  induction h with
  | token h => exact .token h
  | ahead h => exact .ahead h
  | seq _ _ iha ihb => exact .seq iha ihb
  | left _ ih => exact .left ih
  | right _ ih => exact .right ih
  | omit_ _ => exact .omit_ (hstops _ _)
  | take _ ih => exact .take ih
  | stop _ => exact .stop (hstops _ _)
  | more _ _ iha ihmore => exact .more iha ihmore
  | name hX _ ih => exact .name hX ih
  | level hX _ ih => exact .level hX ih

/-- What is left of a token list is no longer than it was. -/
theorem Derives.length_le (h : Derives G greedy n g ts us rs) : us.length ≤ ts.length := by
  induction h with
  | token _ => exact Nat.le_succ _
  | ahead _ => exact Nat.le_refl _
  | seq _ _ iha ihb => exact Nat.le_trans ihb iha
  | left _ ih => exact ih
  | right _ ih => exact ih
  | omit_ _ => exact Nat.le_refl _
  | take _ ih => exact ih
  | stop _ => exact Nat.le_refl _
  | more _ _ iha ihmore => exact Nat.le_trans ihmore iha
  | name _ _ ih => exact ih
  | level _ _ ih => exact ih

/-- Every phrase begins with a token that passes the test. -/
def Begins (G : Grammar τ ρ N) (greedy : Bool) (n : Nat) (g : Gram τ ρ N) (P : τ → Prop) : Prop :=
  ∀ ts us rs, Derives G greedy n g ts us rs →
    ∃ t ts', ts = t :: ts' ∧ P t ∧ us.length ≤ ts'.length

variable {P Q : τ → Prop}

theorem Begins.mono (h : Begins G greedy n g P) (hPQ : ∀ t, P t → Q t) : Begins G greedy n g Q := by
  intro ts us rs hd
  obtain ⟨t, ts', hts, ht, hless⟩ := h ts us rs hd
  exact ⟨t, ts', hts, hPQ t ht, hless⟩

theorem Begins.token : Begins G greedy n (.token emit) fun t => (emit t).isSome := by
  intro ts us rs h
  obtain ⟨t, rfl, ht⟩ := derives_token_iff.mp h
  have hsome : (emit t).isSome = true := by
    rw [ht]
    rfl
  exact ⟨t, us, rfl, hsome, Nat.le_refl _⟩

theorem Begins.mul (h : Begins G greedy n a P) : Begins G greedy n (a * b) P := by
  intro ts us rs hd
  obtain ⟨vs, rs₁, rs₂, ha, hb, -⟩ := derives_mul_iff.mp hd
  obtain ⟨t, ts', hts, ht, hless⟩ := h ts vs rs₁ ha
  exact ⟨t, ts', hts, ht, Nat.le_trans hb.length_le hless⟩

/-- A look ahead in front takes nothing. -/
theorem Begins.ahead_mul (h : Begins G greedy n b P) : Begins G greedy n (.ahead ok * b) P := by
  intro ts us rs hd
  obtain ⟨vs, rs₁, rs₂, ha, hb, -⟩ := derives_mul_iff.mp hd
  obtain ⟨rfl, -, -⟩ := derives_ahead_iff.mp ha
  exact h ts us rs₂ hb

theorem Begins.add (ha : Begins G greedy n a P) (hb : Begins G greedy n b P) :
    Begins G greedy n (a + b) P := by
  intro ts us rs hd
  rcases derives_add_iff.mp hd with h | h
  · exact ha ts us rs h
  · exact hb ts us rs h

theorem Begins.name (hX : G.deep X = false) (h : Begins G greedy n (G.rule X) P) :
    Begins G greedy n (.ref X) P := by
  intro ts us rs hd
  exact h ts us rs ((derives_name_iff hX).mp hd)

theorem Begins.level (hX : G.deep X = true) (h : ∀ m, Begins G greedy m (G.rule X) P) :
    Begins G greedy n (.ref X) P := by
  intro ts us rs hd
  cases n with
  | zero => exact absurd hd (not_derives_level_zero hX)
  | succ m => exact h m ts us rs ((derives_level_iff hX).mp hd)

/-! ## Descending parsers -/

/-- The tokens left over and the readings, or nothing when the tokens are refused. -/
abbrev Step (τ ρ : Type) := List τ → Option (List τ × List ρ)

namespace Step

def fail : Step τ ρ := fun _ => none

/-- The next token, if it can be read. -/
def next (emit : τ → Option (List ρ)) : Step τ ρ
  | [] => none
  | t :: us => (emit t).map fun rs => (us, rs)

/-- No token, but the next ones have to pass. -/
def check (ok : List τ → Bool) : Step τ ρ := fun ts => if ok ts then some (ts, []) else none

def andThen (f g : Step τ ρ) : Step τ ρ := fun ts =>
  match f ts with
  | none => none
  | some (vs, rs₁) => (g vs).map fun r => (r.1, rs₁ ++ r.2)

/-- The next tokens say which of two parsers goes on. -/
def choose (left : List τ → Bool) (f g : Step τ ρ) : Step τ ρ := fun ts =>
  if left ts then f ts else g ts

/-- `f` where the next tokens ask for it. -/
def whenever (goes : List τ → Bool) (f : Step τ ρ) : Step τ ρ := fun ts =>
  if goes ts then f ts else some (ts, [])

/-- `f` again and again as long as the next tokens ask for it; every turn uses a token, so
there are at most as many turns as tokens. -/
def turns (goes : List τ → Bool) (f : Step τ ρ) : Nat → Step τ ρ
  | 0, ts => if goes ts then none else some (ts, [])
  | k + 1, ts => if goes ts then f.andThen (turns goes f k) ts else some (ts, [])

def loop (goes : List τ → Bool) (f : Step τ ρ) : Step τ ρ := fun ts => turns goes f ts.length ts

end Step

open Step

/-- The greedy derivations are the graph of the parser. -/
def Exact (G : Grammar τ ρ N) (n : Nat) (f : Step τ ρ) (g : Gram τ ρ N) : Prop :=
  ∀ ts us rs, f ts = some (us, rs) ↔ Derives G true n g ts us rs

variable {f f' : Step τ ρ}

theorem Exact.next : Exact G n (next emit) (.token emit) := by
  intro ts us rs
  rw [derives_token_iff]
  cases ts with
  | nil => simp [Step.next]
  | cons t ts =>
      simp only [Step.next, Option.map_eq_some_iff, Prod.mk.injEq, List.cons.injEq]
      constructor
      · rintro ⟨rs', ht, rfl, rfl⟩
        exact ⟨t, ⟨rfl, rfl⟩, ht⟩
      · rintro ⟨t, ⟨rfl, rfl⟩, ht⟩
        exact ⟨rs, ht, rfl, rfl⟩

theorem Exact.check : Exact G n (check ok) (.ahead ok) := by
  intro ts us rs
  rw [derives_ahead_iff]
  unfold Step.check
  split
  · rename_i h
    constructor
    · intro heq
      obtain ⟨rfl, rfl⟩ := Prod.mk.inj (Option.some.inj heq)
      exact ⟨rfl, h, rfl⟩
    · rintro ⟨rfl, -, rfl⟩
      rfl
  · rename_i h
    constructor
    · intro heq
      cases heq
    · rintro ⟨rfl, hok, -⟩
      exact absurd hok h

theorem andThen_eq_some_iff {rs : List ρ} :
    f.andThen f' ts = some (us, rs) ↔
      ∃ vs rs₁ rs₂, f ts = some (vs, rs₁) ∧ f' vs = some (us, rs₂) ∧ rs = rs₁ ++ rs₂ := by
  unfold Step.andThen
  cases f ts with
  | none => simp
  | some r =>
      obtain ⟨vs, rs₁⟩ := r
      simp only [Option.map_eq_some_iff, Prod.mk.injEq, Option.some.injEq]
      constructor
      · rintro ⟨⟨us', rs₂⟩, h, rfl, rfl⟩
        exact ⟨vs, rs₁, rs₂, ⟨rfl, rfl⟩, h, rfl⟩
      · rintro ⟨vs', rs₁', rs₂, ⟨rfl, rfl⟩, h, rfl⟩
        exact ⟨(us, rs₂), h, rfl, rfl⟩

/-- **Sequence.** -/
theorem Exact.andThen (hf : Exact G n f a) (hf' : Exact G n f' b) :
    Exact G n (f.andThen f') (a * b) := by
  intro ts us rs
  rw [andThen_eq_some_iff, derives_mul_iff]
  constructor
  · rintro ⟨vs, rs₁, rs₂, h₁, h₂, rfl⟩
    exact ⟨vs, rs₁, rs₂, (hf _ _ _).mp h₁, (hf' _ _ _).mp h₂, rfl⟩
  · rintro ⟨vs, rs₁, rs₂, h₁, h₂, rfl⟩
    exact ⟨vs, rs₁, rs₂, (hf _ _ _).mpr h₁, (hf' _ _ _).mpr h₂, rfl⟩

theorem Exact.name (hX : G.deep X = false) (hf : Exact G n f (G.rule X)) : Exact G n f (.ref X) := by
  intro ts us rs
  rw [derives_name_iff hX]
  exact hf ts us rs

theorem Exact.level (hX : G.deep X = true) (hf : Exact G n f (G.rule X)) :
    Exact G (n + 1) f (.ref X) := by
  intro ts us rs
  rw [derives_level_iff hX]
  exact hf ts us rs

theorem Exact.fail (hX : G.deep X = true) : Exact G 0 fail (.ref X) := by
  intro ts us rs
  constructor
  · intro h
    cases h
  · intro h
    exact absurd h (not_derives_level_zero hX)

/-- **Choice.** A parser that tells from the next tokens which side to take. -/
theorem Exact.choose {left : List τ → Bool} (hf : Exact G n f a) (hf' : Exact G n f' b)
    (ha : ∀ ts us rs, Derives G true n a ts us rs → left ts = true)
    (hb : ∀ ts us rs, Derives G true n b ts us rs → left ts = false) :
    Exact G n (choose left f f') (a + b) := by
  intro ts us rs
  rw [derives_add_iff]
  unfold Step.choose
  by_cases hleft : left ts = true
  · rw [if_pos hleft, hf ts us rs]
    constructor
    · exact Or.inl
    · rintro (h | h)
      · exact h
      · simp [hb _ _ _ h] at hleft
  · rw [if_neg hleft, hf' ts us rs]
    constructor
    · exact Or.inr
    · rintro (h | h)
      · exact absurd (ha _ _ _ h) hleft
      · exact h

/-- A choice whose right side is only looked at where the left one does not begin. -/
theorem Exact.chooseAhead {left : List τ → Bool} (hf : Exact G n f a) (hf' : Exact G n f' b)
    (ha : ∀ ts us rs, Derives G true n a ts us rs → left ts = true) :
    Exact G n (Step.choose left f f') (a + .ahead (fun ts => !left ts) * b) := by
  intro ts us rs
  rw [derives_add_iff]
  unfold Step.choose
  by_cases hleft : left ts = true
  · rw [if_pos hleft, hf ts us rs]
    constructor
    · exact Or.inl
    · rintro (h | h)
      · exact h
      · obtain ⟨vs, rs₁, rs₂, hlook, -, -⟩ := derives_mul_iff.mp h
        obtain ⟨rfl, hok, -⟩ := derives_ahead_iff.mp hlook
        simp [hleft] at hok
  · rw [if_neg hleft, hf' ts us rs]
    constructor
    · intro h
      exact Or.inr (derives_mul_iff.mpr ⟨ts, [], rs, .ahead (by simpa using hleft), h, rfl⟩)
    · rintro (h | h)
      · exact absurd (ha _ _ _ h) hleft
      · obtain ⟨vs, rs₁, rs₂, hlook, hb, rfl⟩ := derives_mul_iff.mp h
        obtain ⟨rfl, -, rfl⟩ := derives_ahead_iff.mp hlook
        exact hb

/-- **An optional part**, entered exactly where its phrases begin. -/
theorem Exact.whenever (hf : Exact G n f a)
    (hgoes : ∀ ts us rs, Derives G true n a ts us rs → goes ts = true) :
    Exact G n (whenever goes f) (.opt goes a) := by
  intro ts us rs
  rw [derives_opt_iff]
  unfold Step.whenever
  by_cases h : goes ts = true
  · rw [if_pos h, hf ts us rs]
    constructor
    · exact Or.inl
    · rintro (hd | ⟨rfl, hstop, -⟩)
      · exact hd
      · simp [hstop rfl] at h
  · rw [if_neg h]
    constructor
    · intro heq
      obtain ⟨rfl, rfl⟩ := Prod.mk.inj (Option.some.inj heq)
      exact Or.inr ⟨rfl, fun _ => by simpa using h, rfl⟩
    · rintro (hd | ⟨rfl, -, rfl⟩)
      · exact absurd (hgoes _ _ _ hd) h
      · rfl

/-- An optional part that may not be left out where it can begin, in either reading. -/
theorem Exact.wheneverAhead (hf : Exact G n f a)
    (hgoes : ∀ ts us rs, Derives G true n a ts us rs → goes ts = true) :
    Exact G n (Step.whenever goes f) (a + .ahead fun ts => !goes ts) := by
  intro ts us rs
  rw [hf.whenever hgoes ts us rs, derives_opt_iff, derives_add_iff, derives_ahead_iff]
  constructor
  · rintro (hd | ⟨rfl, hstop, rfl⟩)
    · exact Or.inl hd
    · exact Or.inr ⟨rfl, by simpa using hstop rfl, rfl⟩
  · rintro (hd | ⟨rfl, hno, rfl⟩)
    · exact Or.inl hd
    · exact Or.inr ⟨rfl, fun _ => by simpa using hno, rfl⟩

/-- **A loop** whose turns use a token each, entered exactly where its phrases begin. -/
theorem Exact.loop (hf : Exact G n f a)
    (hgoes : ∀ ts us rs, Derives G true n a ts us rs → goes ts = true ∧ us.length < ts.length) :
    Exact G n (loop goes f) (.star goes a) := by
  have hturns : ∀ k ts us rs, ts.length ≤ k →
      (turns goes f k ts = some (us, rs) ↔ Derives G true n (.star goes a) ts us rs) := by
    intro k
    induction k with
    | zero =>
        intro ts us rs hk
        rw [derives_star_iff, turns]
        constructor
        · intro heq
          split at heq
          · cases heq
          · rename_i h
            obtain ⟨rfl, rfl⟩ := Prod.mk.inj (Option.some.inj heq)
            exact Or.inr ⟨rfl, fun _ => by simpa using h, rfl⟩
        · rintro (⟨vs, rs₁, rs₂, ha, -, -⟩ | ⟨rfl, hstop, rfl⟩)
          · have hless := (hgoes _ _ _ ha).2
            omega
          · rw [hstop rfl]
            rfl
    | succ k ih =>
        intro ts us rs hk
        rw [derives_star_iff, turns]
        by_cases h : goes ts = true
        · rw [if_pos h, andThen_eq_some_iff]
          constructor
          · rintro ⟨vs, rs₁, rs₂, h₁, h₂, rfl⟩
            have ha := (hf _ _ _).mp h₁
            have hless := (hgoes _ _ _ ha).2
            exact Or.inl ⟨vs, rs₁, rs₂, ha, (ih vs us rs₂ (by omega)).mp h₂, rfl⟩
          · rintro (⟨vs, rs₁, rs₂, ha, hmore, rfl⟩ | ⟨rfl, hstop, -⟩)
            · have hless := (hgoes _ _ _ ha).2
              exact ⟨vs, rs₁, rs₂, (hf _ _ _).mpr ha, (ih vs us rs₂ (by omega)).mpr hmore, rfl⟩
            · simp [hstop rfl] at h
        · rw [if_neg h]
          constructor
          · intro heq
            obtain ⟨rfl, rfl⟩ := Prod.mk.inj (Option.some.inj heq)
            exact Or.inr ⟨rfl, fun _ => by simpa using h, rfl⟩
          · rintro (⟨vs, rs₁, rs₂, ha, -, -⟩ | ⟨rfl, -, rfl⟩)
            · exact absurd (hgoes _ _ _ ha).1 h
            · rfl
  intro ts us rs
  exact hturns ts.length ts us rs (Nat.le_refl _)

end Grammar

end Devscout.Lib
