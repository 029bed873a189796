/-
# Devscout.Lib.Wildcard -- patterns with a wildcard

A pattern is a list of symbols, one of which, `many`, stands for any run of letters. Every
other symbol stands for one letter it is allowed to stand for. Both the segments of a path
pattern and the characters of one segment are patterns in this sense.

Where a symbol stands for itself alone, a pattern falls into the literal pieces between its
wildcards, and a text is matched by finding the pieces one after the other. Taking each piece
at its first occurrence leaves the longest rest, so it finds them whenever they are there.
-/

import Devscout.Lib.Text

namespace Devscout.Lib.Wildcard

variable {σ τ : Type}

/-! ## The language of a pattern -/

/-- A pattern covers a word: `many` covers any run of letters, every other symbol one letter. -/
inductive Covers (many : σ) (one : σ → τ → Prop) : List σ → List τ → Prop
  | nil : Covers many one [] []
  | many (u : List τ) {p : List σ} {v : List τ} : Covers many one p v → Covers many one (many :: p) (u ++ v)
  | one {s : σ} {t : τ} {p : List σ} {v : List τ} : s ≠ many → one s t → Covers many one p v →
      Covers many one (s :: p) (t :: v)

namespace Covers

variable {many : σ} {one : σ → τ → Prop}

@[simp] theorem nil_iff {v : List τ} : Covers many one [] v ↔ v = [] := by
  constructor
  · intro h
    cases h
    rfl
  · rintro rfl
    exact .nil

/-- A wildcard covers nothing, or one letter more. -/
theorem many_iff {p : List σ} {v : List τ} :
    Covers many one (many :: p) v ↔
      Covers many one p v ∨ ∃ t v', v = t :: v' ∧ Covers many one (many :: p) v' := by
  constructor
  · intro h
    cases h with
    | many u h =>
        cases u with
        | nil => exact .inl h
        | cons t u => exact .inr ⟨t, _, rfl, .many u h⟩
    | one hne => exact absurd rfl hne
  · rintro (h | ⟨t, v', rfl, h⟩)
    · exact .many [] h
    · cases h with
      | many u h => exact .many (t :: u) h
      | one hne => exact absurd rfl hne

/-- Any other symbol covers one letter. -/
theorem one_iff {s : σ} (hs : s ≠ many) {p : List σ} {v : List τ} :
    Covers many one (s :: p) v ↔ ∃ t v', v = t :: v' ∧ one s t ∧ Covers many one p v' := by
  constructor
  · intro h
    cases h with
    | many => exact absurd rfl hs
    | one _ hone h => exact ⟨_, _, rfl, hone, h⟩
  · rintro ⟨t, v', rfl, hone, h⟩
    exact .one hs hone h

theorem mono {other : σ → τ → Prop} (hle : ∀ s t, one s t → other s t) {p : List σ} {v : List τ}
    (h : Covers many one p v) : Covers many other p v := by
  induction h with
  | nil => exact .nil
  | many u _ ih => exact .many u ih
  | one hs hone _ ih => exact .one hs (hle _ _ hone) ih

theorem append_iff {p q : List σ} {v : List τ} :
    Covers many one (p ++ q) v ↔ ∃ a b, v = a ++ b ∧ Covers many one p a ∧ Covers many one q b := by
  constructor
  · intro h
    induction p generalizing v with
    | nil => exact ⟨[], v, rfl, .nil, h⟩
    | cons s p ih =>
        cases h with
        | many u h =>
            obtain ⟨a, b, rfl, ha, hb⟩ := ih h
            exact ⟨u ++ a, b, (List.append_assoc ..).symm, .many u ha, hb⟩
        | one hs hone h =>
            obtain ⟨a, b, rfl, ha, hb⟩ := ih h
            exact ⟨_ :: a, b, rfl, .one hs hone ha, hb⟩
  · rintro ⟨a, b, rfl, ha, hb⟩
    induction ha with
    | nil => exact hb
    | many u _ ih =>
        rw [List.append_assoc]
        exact .many u ih
    | one hs hone _ ih => exact .one hs hone ih

end Covers

/-! ## Literal pieces -/

section Literal

variable {many : σ}

/-- A pattern whose symbols stand for themselves. -/
abbrev Matches (many : σ) : List σ → List σ → Prop := Covers many (· = ·)

theorem matches_literal {p v : List σ} (hp : many ∉ p) : Matches many p v ↔ v = p := by
  induction p generalizing v with
  | nil => exact Covers.nil_iff
  | cons s p ih =>
      have hs : s ≠ many := fun h => hp (h ▸ List.mem_cons_self)
      have htail : many ∉ p := fun h => hp (List.mem_cons_of_mem s h)
      refine (Covers.one_iff hs).trans ?_
      constructor
      · rintro ⟨t, v', rfl, rfl, h⟩
        rw [(ih htail).mp h]
      · rintro rfl
        exact ⟨s, p, rfl, rfl, (ih htail).mpr rfl⟩

/-- After a wildcard, a literal piece stands anywhere. -/
theorem matches_many_literal {last v : List σ} (hlast : many ∉ last) :
    Matches many (many :: last) v ↔ last <:+ v := by
  constructor
  · intro h
    cases h with
    | many u h =>
        rw [(matches_literal hlast).mp h]
        exact ⟨u, rfl⟩
    | one hne => exact absurd rfl hne
  · rintro ⟨u, rfl⟩
    exact .many u ((matches_literal hlast).mpr rfl)

/-- A literal piece after the last wildcard ends the text, and what stands before it is
matched by the rest. -/
theorem matches_last_iff {body last v : List σ} (hlast : many ∉ last) :
    Matches many (body ++ many :: last) v ↔
      ∃ before, v = before ++ last ∧ Matches many (body ++ [many]) before := by
  constructor
  · intro h
    -- what the wildcard covers goes to the text before the piece
    obtain ⟨a, b, rfl, ha, hb⟩ := Covers.append_iff.mp h
    obtain ⟨u, rfl⟩ := (matches_many_literal hlast).mp hb
    refine ⟨a ++ u, (List.append_assoc ..).symm, Covers.append_iff.mpr ⟨a, u, rfl, ha, ?_⟩⟩
    simpa using Covers.many u (Covers.nil : Matches many [] [])
  · rintro ⟨before, rfl, h⟩
    obtain ⟨a, u, rfl, ha, -⟩ := Covers.append_iff.mp h
    refine Covers.append_iff.mpr ⟨a, u ++ last, List.append_assoc .., ha, ?_⟩
    exact (matches_many_literal hlast).mpr ⟨u, rfl⟩

variable [DecidableEq σ]

/-- What stands after the first occurrence of a piece. -/
def afterFirst (piece : List σ) : List σ → Option (List σ)
  | [] => if piece = [] then some [] else none
  | c :: v => if piece <+: c :: v then some ((c :: v).drop piece.length) else afterFirst piece v

/-- What stands after some pieces, each taken at its first occurrence after the one before. -/
def afterAll : List (List σ) → List σ → Option (List σ)
  | [], v => some v
  | piece :: pieces, v => (afterFirst piece v).bind (afterAll pieces)

/-- Some pieces, each after a wildcard. -/
def starred (many : σ) (pieces : List (List σ)) : List σ := pieces.flatMap (many :: ·)

theorem afterFirst_sound {piece v w : List σ} (h : afterFirst piece v = some w) :
    ∃ u, v = u ++ (piece ++ w) := by
  induction v with
  | nil =>
      rw [afterFirst] at h
      split at h
      · next hpiece =>
          cases h
          exact ⟨[], by rw [hpiece]; rfl⟩
      · cases h
  | cons c v ih =>
      rw [afterFirst] at h
      split at h
      · next hpre =>
          obtain ⟨r, hr⟩ := hpre
          rw [← hr, List.drop_left] at h
          cases h
          exact ⟨[], hr.symm⟩
      · obtain ⟨u, hu⟩ := ih h
        exact ⟨c :: u, by rw [hu]; rfl⟩

/-- The first occurrence leaves no less than any other. -/
theorem afterFirst_longest (piece u w : List σ) :
    ∃ r, afterFirst piece (u ++ (piece ++ w)) = some r ∧ w <:+ r := by
  induction u with
  | nil =>
      refine ⟨w, ?_, List.suffix_refl w⟩
      rw [List.nil_append]
      cases hv : piece ++ w with
      | nil =>
          obtain ⟨rfl, rfl⟩ := List.append_eq_nil_iff.mp hv
          rfl
      | cons c v =>
          rw [afterFirst, if_pos ⟨w, hv⟩, ← hv, List.drop_left]
  | cons c u ih =>
      rw [List.cons_append, afterFirst]
      split
      · next hpre =>
          obtain ⟨r, hr⟩ := hpre
          refine ⟨r, by rw [← hr, List.drop_left], ?_⟩
          -- both `r` and `w` end the text, and no fewer letters stand before `w`
          have hw : w <:+ c :: (u ++ (piece ++ w)) := ⟨c :: u ++ piece, by simp⟩
          refine List.suffix_of_suffix_length_le hw ⟨piece, hr⟩ ?_
          have hlen := congrArg List.length hr
          simp only [List.length_append, List.length_cons] at hlen
          omega
      · exact ih

theorem afterAll_sound {pieces : List (List σ)} (hpieces : ∀ p ∈ pieces, many ∉ p) {v w : List σ}
    (h : afterAll pieces v = some w) : ∃ a, v = a ++ w ∧ Matches many (starred many pieces) a := by
  induction pieces generalizing v with
  | nil =>
      cases h
      exact ⟨[], rfl, .nil⟩
  | cons piece pieces ih =>
      obtain ⟨r, hr, hrest⟩ := Option.bind_eq_some_iff.mp h
      obtain ⟨u, rfl⟩ := afterFirst_sound hr
      obtain ⟨a, rfl, ha⟩ := ih (fun p hp => hpieces p (List.mem_cons_of_mem _ hp)) hrest
      have hpiece : many ∉ piece := hpieces piece List.mem_cons_self
      refine ⟨u ++ (piece ++ a), by simp, .many u ?_⟩
      exact Covers.append_iff.mpr ⟨piece, a, rfl, (matches_literal hpiece).mpr rfl, ha⟩

/-- Pieces that stand in a text one after the other are found, and no less is left. -/
theorem afterAll_longest {pieces : List (List σ)} (hpieces : ∀ p ∈ pieces, many ∉ p) {a w v : List σ}
    (ha : Matches many (starred many pieces) a) (hv : a ++ w <:+ v) :
    ∃ r, afterAll pieces v = some r ∧ w <:+ r := by
  induction pieces generalizing a v with
  | nil =>
      cases ha
      exact ⟨v, rfl, hv⟩
  | cons piece pieces ih =>
      have hpiece : many ∉ piece := hpieces piece List.mem_cons_self
      cases ha with
      | one hne => exact absurd rfl hne
      | many u ha =>
          obtain ⟨p, b, rfl, hp, hb⟩ := Covers.append_iff.mp ha
          rw [(matches_literal hpiece).mp hp] at hv
          obtain ⟨x, hx⟩ := hv
          -- the search may find the piece earlier, which leaves the pieces after it more room
          obtain ⟨r, hr, hsuffix⟩ := afterFirst_longest piece (x ++ u) (b ++ w)
          obtain ⟨r', hr', hw⟩ := ih (fun p hp => hpieces p (List.mem_cons_of_mem _ hp)) hb hsuffix
          refine ⟨r', ?_, hw⟩
          have hv : v = x ++ u ++ (piece ++ (b ++ w)) := by simp [← hx]
          rw [afterAll, hv, hr]
          exact hr'

/-- Literal pieces with wildcards between them and one at the end: the first piece begins the
text, and the search finds the others. -/
theorem matches_pieces_iff {first : List σ} (hfirst : many ∉ first) {pieces : List (List σ)}
    (hpieces : ∀ p ∈ pieces, many ∉ p) {v : List σ} :
    Matches many (first ++ starred many pieces ++ [many]) v ↔
      first <+: v ∧ (afterAll pieces (v.drop first.length)).isSome := by
  constructor
  · intro h
    obtain ⟨ab, w, rfl, hab, -⟩ := Covers.append_iff.mp h
    obtain ⟨f, a, rfl, hf, ha⟩ := Covers.append_iff.mp hab
    rw [(matches_literal hfirst).mp hf, List.append_assoc, List.drop_left]
    obtain ⟨r, hr, -⟩ := afterAll_longest hpieces ha (List.suffix_refl (a ++ w))
    exact ⟨⟨a ++ w, rfl⟩, by rw [hr]; rfl⟩
  · rintro ⟨⟨t, rfl⟩, h⟩
    rw [List.drop_left] at h
    obtain ⟨w, hw⟩ := Option.isSome_iff_exists.mp h
    obtain ⟨a, rfl, ha⟩ := afterAll_sound hpieces hw
    -- the wildcard at the end covers what the search left
    refine Covers.append_iff.mpr ⟨first ++ a, w, by simp, ?_, ?_⟩
    · exact Covers.append_iff.mpr ⟨first, a, rfl, (matches_literal hfirst).mpr rfl, ha⟩
    · simpa using Covers.many w (Covers.nil : Matches many [] [])

/-! ## A pattern that is cut at its wildcards -/

theorem splitOn_no_many (many : σ) (p : List σ) : ∀ piece ∈ p.splitOn many, many ∉ piece := by
  intro piece hpiece
  induction p generalizing piece with
  | nil =>
      rw [List.splitOn_nil, List.mem_singleton] at hpiece
      simp [hpiece]
  | cons s p ih =>
      rw [List.splitOn_cons_eq_if_modifyHead] at hpiece
      split at hpiece
      · rcases List.mem_cons.mp hpiece with rfl | h
        · simp
        · exact ih piece h
      · next hs =>
          cases hcut : p.splitOn many with
          | nil => exact absurd hcut (List.splitOn_ne_nil _ _)
          | cons head rest =>
              rw [hcut] at hpiece ih
              rcases List.mem_cons.mp hpiece with rfl | h
              · have hhead := ih head List.mem_cons_self
                have hne : s ≠ many := by simpa using hs
                simpa [hne.symm] using hhead
              · exact ih piece (List.mem_cons_of_mem _ h)

/-- A pattern is its first piece and the others, each after a wildcard. -/
theorem eq_starred_of_splitOn {p first : List σ} {rest : List (List σ)}
    (h : p.splitOn many = first :: rest) : p = first ++ starred many rest := by
  have hjoin : [many].intercalate (p.splitOn many) = p := List.intercalate_splitOn many
  rw [h] at hjoin
  rw [← hjoin]
  clear h hjoin
  induction rest generalizing first with
  | nil => simp [starred]
  | cons second rest ih => simp [List.intercalate_cons_cons, ih, starred]

end Literal

end Devscout.Lib.Wildcard
