/-
# Devscout.Lib.Precedence -- operator levels, and readers that evaluate while they parse

A phrase is a run of tokens with a value. A level of left-associative binary operators
turns the phrases of the next tighter level into chains of them, the value folded from
the left. A reader takes a phrase off the front of a token list and returns its value
and the tokens it leaves. It is exact up to a length when, on lists that long at most,
it returns precisely the phrases that the tokens left over do not carry further; the
bound lets readers that call each other be proved by induction on it.

The one rule is that a loop of exact operand readers is exact for the chains of their
phrases. It says nothing of how many levels there are, so it is used once per level.
-/

import Mathlib

namespace Devscout.Lib.Precedence

variable {τ V : Type}

/-- Runs of tokens, each with its value. -/
abbrev Phrases (τ V : Type) := List τ → V → Prop

abbrev Reader (τ V : Type) := List τ → Option (V × List τ)

/-- The tokens left over do not begin with one that carries a phrase further. -/
def Ends (more : τ → Bool) (ts : List τ) : Prop := ∀ t ∈ ts.head?, more t = false

/-- The reader is exact on lists of at most `n` tokens. -/
def Exact (n : Nat) (P : Phrases τ V) (p : Reader τ V) (more : τ → Bool) : Prop :=
  ∀ ts, ts.length ≤ n → ∀ v rest,
    p ts = some (v, rest) ↔ ∃ phrase, ts = phrase ++ rest ∧ P phrase v ∧ Ends more rest

theorem Exact.mono {n m : Nat} {P : Phrases τ V} {p : Reader τ V} {more : τ → Bool}
    (h : Exact n P p more) (hm : m ≤ n) : Exact m P p more :=
  fun ts hts => h ts (Nat.le_trans hts hm)

theorem ends_nil (more : τ → Bool) : Ends more [] := by
  intro t ht
  cases ht

theorem ends_cons_iff {more : τ → Bool} {t : τ} {ts : List τ} :
    Ends more (t :: ts) ↔ more t = false := by
  simp [Ends]

theorem ends_or_iff {more more' : τ → Bool} {ts : List τ} :
    Ends (fun t => more t || more' t) ts ↔ Ends more ts ∧ Ends more' ts := by
  cases ts with
  | nil => simp [ends_nil]
  | cons t ts => simp [ends_cons_iff]

/-! ## Chains -/

/-- The operators of a level, each with what it does to the values on its two sides. -/
abbrev Operators (τ V : Type) := τ → Option (V → V → V)

/-- The rest of a chain: operators, each with the phrase on its right, that take the
value so far to the value of the whole. -/
inductive Tail (op : Operators τ V) (P : Phrases τ V) : V → List τ → V → Prop
  | nil (v : V) : Tail op P v [] v
  | cons {v w x : V} {t : τ} {f : V → V → V} {us ts : List τ} : op t = some f → P us x →
      Tail op P (f v x) ts w → Tail op P v (t :: us ++ ts) w

/-- The phrases of a level: a tighter phrase and the rest of its chain. -/
def Chain (op : Operators τ V) (P : Phrases τ V) : Phrases τ V :=
  fun ts w => ∃ us v ts', ts = us ++ ts' ∧ P us v ∧ Tail op P v ts' w

variable {op : Operators τ V} {P : Phrases τ V}

/-- A chain may also be carried on by one operator at its end. -/
theorem Tail.snoc {v w x : V} {t : τ} {f : V → V → V} {us ts : List τ} (h : Tail op P v ts w)
    (hop : op t = some f) (hx : P us x) : Tail op P v (ts ++ t :: us) (f w x) := by
  induction h with
  | nil v => simpa using Tail.cons hop hx (.nil _)
  | cons hop' hx' _ ih => simpa using Tail.cons hop' hx' ih

/-- The chains are the least phrases that hold the tighter ones and may be carried on
by an operator and a tighter phrase. -/
theorem chain_induction {Q : Phrases τ V} (hone : ∀ us v, P us v → Q us v)
    (hmore : ∀ {us ts t f v w}, Q us v → op t = some f → P ts w → Q (us ++ t :: ts) (f v w))
    {ts : List τ} {w : V} (h : Chain op P ts w) : Q ts w := by
  obtain ⟨us, v, ts', rfl, hv, htail⟩ := h
  have hQ : Q us v := hone us v hv
  clear hv
  -- along the rest of the chain: what is read so far is a phrase of the level
  induction htail generalizing us with
  | nil => simpa using hQ
  | cons hop hx _ ih => simpa using ih (us ++ _ :: _) (hmore hQ hop hx)

theorem Chain.one {us : List τ} {v : V} (h : P us v) : Chain op P us v :=
  ⟨us, v, [], by simp, h, .nil v⟩

theorem Chain.snoc {us ts : List τ} {t : τ} {f : V → V → V} {v w : V} (h : Chain op P us v)
    (hop : op t = some f) (hw : P ts w) : Chain op P (us ++ t :: ts) (f v w) := by
  obtain ⟨us₁, v₁, us₂, rfl, hv, htail⟩ := h
  exact ⟨us₁, v₁, us₂ ++ t :: ts, by simp, hv, htail.snoc hop hw⟩

/-- So a level of a grammar is that of chains when it holds the tighter one, may be carried on, and
has no other phrases. -/
theorem chain_eq {Q : Phrases τ V} (hone : ∀ us v, P us v → Q us v)
    (hmore : ∀ {us ts t f v w}, Q us v → op t = some f → P ts w → Q (us ++ t :: ts) (f v w))
    (hback : ∀ ts v, Q ts v → Chain op P ts v) : Chain op P = Q := by
  funext ts v
  exact propext ⟨chain_induction hone hmore, hback ts v⟩

/-! ## Loops -/

/-- `loop v` goes on from the value so far: on an operator it reads one more operand with
`p`, on anything else it stops. -/
structure IsLoop (op : Operators τ V) (p : Reader τ V) (loop : V → Reader τ V) : Prop where
  more : ∀ {t f ts v}, op t = some f →
    loop v (t :: ts) = (p ts).bind fun x => loop (f v x.1) x.2
  stop : ∀ {ts v}, Ends (fun t => (op t).isSome) ts → loop v ts = some (v, ts)

variable {p : Reader τ V} {loop : V → Reader τ V} {more : τ → Bool} {n : Nat}

theorem Tail.ends_append {v w : V} {ts rest : List τ} (h : Tail op P v ts w)
    (htight : ∀ t, (op t).isSome → more t = false) (hrest : Ends more rest) :
    Ends more (ts ++ rest) := by
  cases h with
  | nil => exact hrest
  | cons hop _ _ => exact ends_cons_iff.mpr (htight _ (by simp [hop]))

/-- A loop of exact readers runs over the rest of a chain and stops after it. -/
theorem IsLoop.of_tail (hloop : IsLoop op p loop) (hp : Exact n P p more)
    (htight : ∀ t, (op t).isSome → more t = false) {v w : V} {ts rest : List τ}
    (h : Tail op P v ts w) (hlen : (ts ++ rest).length ≤ n) (hmore : Ends more rest)
    (hop : Ends (fun t => (op t).isSome) rest) : loop v (ts ++ rest) = some (w, rest) := by
  induction h with
  | nil v => exact hloop.stop hop
  | @cons v w x t f us ts hf hx htail ih =>
      -- the operand is followed by an operator of this level or by what ends the chain
      have hshort : (us ++ (ts ++ rest)).length ≤ n ∧ (ts ++ rest).length ≤ n := by
        simp only [List.cons_append, List.length_cons, List.length_append] at hlen ⊢
        omega
      have hread : p (us ++ (ts ++ rest)) = some (x, ts ++ rest) :=
        (hp _ hshort.1 _ _).mpr ⟨us, rfl, hx, htail.ends_append htight hmore⟩
      have hlist : t :: us ++ ts ++ rest = t :: (us ++ (ts ++ rest)) := by simp
      rw [hlist, hloop.more hf, hread]
      exact ih hshort.2

/-- What a loop of exact readers consumes is the rest of a chain. -/
theorem IsLoop.tail (hloop : IsLoop op p loop) (hp : Exact n P p more) {v w : V}
    {ts rest : List τ} (h : loop v ts = some (w, rest)) (hlen : ts.length ≤ n)
    (hmore : Ends more ts) :
    ∃ ts', ts = ts' ++ rest ∧ Tail op P v ts' w ∧ Ends more rest ∧
      Ends (fun t => (op t).isSome) rest := by
  -- on the length, since the operand's reader says only that it left less
  induction hk : ts.length using Nat.strongRecOn generalizing ts v with
  | ind k ih =>
      subst hk
      by_cases hends : Ends (fun t => (op t).isSome) ts
      · rw [hloop.stop hends] at h
        cases h
        exact ⟨[], rfl, .nil _, hmore, hends⟩
      · cases ts with
        | nil => exact absurd (ends_nil _) hends
        | cons t ts =>
            rw [ends_cons_iff, Bool.not_eq_false] at hends
            obtain ⟨f, hf⟩ := Option.isSome_iff_exists.mp hends
            rw [hloop.more hf, Option.bind_eq_some_iff] at h
            obtain ⟨⟨x, ts₁⟩, hread, h⟩ := h
            have hts : ts.length ≤ n := Nat.le_of_succ_le hlen
            obtain ⟨us, rfl, hx, hends₁⟩ := (hp _ hts _ _).mp hread
            have hlt : ts₁.length < (t :: (us ++ ts₁)).length := by
              simp only [List.length_cons, List.length_append]
              omega
            obtain ⟨ts₂, rfl, htail, hrest⟩ :=
              ih _ hlt h (Nat.le_trans (Nat.le_of_lt hlt) hlen) hends₁ rfl
            exact ⟨t :: us ++ ts₂, by simp, .cons hf hx htail, hrest⟩

/-- **One level.** An operand and then the loop read exactly the chains, when the level's
operators do not carry an operand further. -/
theorem Exact.chain (hp : Exact n P p more) (hloop : IsLoop op p loop)
    (htight : ∀ t, (op t).isSome → more t = false) :
    Exact n (Chain op P) (fun ts => (p ts).bind fun x => loop x.1 x.2)
      (fun t => more t || (op t).isSome) := by
  intro ts hlen w rest
  constructor
  · intro h
    obtain ⟨⟨v, ts₁⟩, hread, hrun⟩ := Option.bind_eq_some_iff.mp h
    obtain ⟨us, rfl, hv, hends⟩ := (hp _ hlen _ _).mp hread
    have hlen₁ : ts₁.length ≤ n := by
      rw [List.length_append] at hlen
      omega
    obtain ⟨ts₂, rfl, htail, hmore, hop⟩ := hloop.tail hp hrun hlen₁ hends
    exact ⟨us ++ ts₂, by simp, ⟨us, v, ts₂, rfl, hv, htail⟩, ends_or_iff.mpr ⟨hmore, hop⟩⟩
  · rintro ⟨phrase, rfl, ⟨us, v, ts', rfl, hv, htail⟩, hends⟩
    obtain ⟨hmore, hop⟩ := ends_or_iff.mp hends
    rw [List.append_assoc] at hlen ⊢
    have hread : p (us ++ (ts' ++ rest)) = some (v, ts' ++ rest) :=
      (hp _ hlen _ _).mpr ⟨us, rfl, hv, htail.ends_append htight hmore⟩
    have hlen' : (ts' ++ rest).length ≤ n := by
      rw [List.length_append] at hlen
      omega
    show (p _).bind _ = _
    rw [hread]
    exact hloop.of_tail hp htight htail hlen' hmore hop

end Devscout.Lib.Precedence
