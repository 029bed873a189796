/-
# Devscout.JsonExact -- the JSON reader against the grammar

What the reader accepts is derived by the grammar with the reader's numbers, and what that grammar
derives is accepted, as the value that stands there. Both are inductions over the fuel that go
through values, items and members at once. From them, and from the numbers that a scan of the text
finds, comes where the reader keeps to RFC 8259.
-/

import Devscout.JsonReader

namespace Devscout.JsonReader

open Lib Lib.JsonGrammar Outcome

/-! ## What is accepted is JSON -/

section Sound

variable {total : Nat} {s r : Str}

theorem value_of_parseArray {loop : Str → Outcome (List Tree)} {v : Tree}
    (hloop : ∀ s vs r, loop s = .ok vs r → Items reader s vs r) (h : parseArray loop s = .ok v r) :
    Value reader ('[' :: s) v r := by
  have hws := ws_skipWs s
  unfold parseArray at h
  split at h
  · exact nomatch h
  · rename_i c s' hs
    rw [hs] at hws
    split at h
    · rename_i hc
      obtain ⟨rfl, rfl⟩ := Outcome.ok.inj h
      exact .emptyArray (hc ▸ hws)
    · obtain ⟨vs, t, hitems, h⟩ := andThen_eq_ok.mp h
      obtain ⟨rfl, rfl⟩ := Outcome.ok.inj h
      exact .array ((hloop _ _ _ hitems).before hws)

theorem value_of_parseObject {loop : Str → Outcome (List (Str × Tree))} {v : Tree}
    (hloop : ∀ s fs r, loop s = .ok fs r → Members reader s fs r) (h : parseObject loop s = .ok v r) :
    Value reader ('\x7b' :: s) v r := by
  have hws := ws_skipWs s
  unfold parseObject at h
  split at h
  · exact nomatch h
  · rename_i c s' hs
    rw [hs] at hws
    split at h
    · rename_i hc
      obtain ⟨rfl, rfl⟩ := Outcome.ok.inj h
      exact .emptyObject (hc ▸ hws)
    · obtain ⟨fs, t, hmembers, h⟩ := andThen_eq_ok.mp h
      obtain ⟨rfl, rfl⟩ := Outcome.ok.inj h
      exact .object ((hloop _ _ _ hmembers).before hws)

/-- One turn of a loop: a value, and behind it a comma or the end. -/
theorem spaced_of_step {β : Type} {value : Str → Outcome Tree} {loop : Str → Outcome (List β)}
    {wrap : Tree → β} {last : Char} {out : List β} {failure : Char → Str → Str}
    (hvalue : ∀ s v r, value s = .ok v r → ∃ s', Ws s s' ∧ Value reader s' v r)
    (h : ((value s).andThen fun v s =>
      match skipWs s with
      | [] => .error endOfInput
      | c :: s =>
          if c = ',' then (loop s).andThen fun items s => .ok (wrap v :: items) s
          else if c = last then .ok [wrap v] s else .error (failure c s)) = .ok out r) :
    (∃ v t items, Spaced reader s v (',' :: t) ∧ loop t = .ok items r ∧ out = wrap v :: items) ∨
      ∃ v, Spaced reader s v (last :: r) ∧ out = [wrap v] := by
  obtain ⟨v, t, hv, h⟩ := andThen_eq_ok.mp h
  obtain ⟨s', hbefore, hv⟩ := hvalue _ _ _ hv
  have hws := ws_skipWs t
  split at h
  · exact nomatch h
  · rename_i c t' ht
    rw [ht] at hws
    split at h
    · rename_i hc
      obtain ⟨items, t'', hitems, h⟩ := andThen_eq_ok.mp h
      obtain ⟨rfl, rfl⟩ := Outcome.ok.inj h
      exact Or.inl ⟨v, t', items, ⟨hbefore, hv, hc ▸ hws⟩, hitems, rfl⟩
    · split at h
      · rename_i hc
        obtain ⟨rfl, rfl⟩ := Outcome.ok.inj h
        exact Or.inr ⟨v, ⟨hbefore, hv, hc ▸ hws⟩, rfl⟩
      · exact nomatch h

theorem value_of_step {n : Nat} {v : Tree}
    (hitems : ∀ s vs r, parseItems total n s = .ok vs r → Items reader s vs r)
    (hmembers : ∀ s fs r, parseMembers total n s = .ok fs r → Members reader s fs r)
    (h : parseValue total (n + 1) s = .ok v r) : ∃ s', Ws s s' ∧ Value reader s' v r := by
  have hws := ws_skipWs s
  rw [parseValue] at h
  split at h
  · cases h
  · rename_i c s' hs
    rw [hs] at hws
    refine ⟨_, hws, ?_⟩
    by_cases hbrace : c = '\x7b'
    · rw [if_pos hbrace] at h
      exact hbrace ▸ value_of_parseObject hmembers h
    by_cases hbracket : c = '['
    · rw [if_neg hbrace, if_pos hbracket] at h
      exact hbracket ▸ value_of_parseArray hitems h
    by_cases hquote : c = '"'
    · rw [if_neg hbrace, if_neg hbracket, if_pos hquote] at h
      obtain ⟨x, t, hx, h⟩ := andThen_eq_ok.mp h
      obtain ⟨rfl, rfl⟩ := Outcome.ok.inj h
      exact hquote ▸ .string (parseString_iff.mp hx)
    rw [if_neg hbrace, if_neg hbracket, if_neg hquote] at h
    -- the words and the numbers
    split at h
    · obtain ⟨heq, rfl⟩ := parseLiteral_ok h
      exact heq ▸ .true r
    · split at h
      · obtain ⟨heq, rfl⟩ := parseLiteral_ok h
        exact heq ▸ .false r
      · split at h
        · obtain ⟨heq, rfl⟩ := parseLiteral_ok h
          exact heq ▸ .null r
        · split at h
          · rename_i hc
            exact parseNumber_ok h (by simpa [startsNumber] using hc)
          · cases h

theorem members_of_step {n : Nat} {fs : List (Str × Tree)}
    (hvalue : ∀ s v r, parseValue total n s = .ok v r → ∃ s', Ws s s' ∧ Value reader s' v r)
    (hmembers : ∀ s fs r, parseMembers total n s = .ok fs r → Members reader s fs r)
    (h : parseMembers total (n + 1) s = .ok fs r) : Members reader s fs r := by
  have hws := ws_skipWs s
  rw [parseMembers] at h
  split at h
  · exact nomatch h
  · rename_i c s' hs
    rw [hs] at hws
    split at h
    · rename_i hquote
      obtain ⟨key, t, hkey, h⟩ := andThen_eq_ok.mp h
      have hcolon := ws_skipWs t
      split at h
      · exact nomatch h
      · rename_i d t' ht
        rw [ht] at hcolon
        split at h
        · rename_i hd
          rcases @spaced_of_step _ _ _ _ _ (fun v => (key, v)) _ _ _ hvalue h with
            ⟨v, t'', entries, hv, hrest, rfl⟩ | ⟨v, hv, rfl⟩
          · exact .more (hquote ▸ hws) (parseString_iff.mp hkey) (hd ▸ hcolon) hv (hmembers _ _ _ hrest)
          · exact .last (hquote ▸ hws) (parseString_iff.mp hkey) (hd ▸ hcolon) hv
        · exact nomatch h
    · exact nomatch h

/-- What the reader takes for a value, for items or for members is one. -/
theorem sound (total n : Nat) :
    (∀ s v r, parseValue total n s = .ok v r → ∃ s', Ws s s' ∧ Value reader s' v r) ∧
      (∀ s vs r, parseItems total n s = .ok vs r → Items reader s vs r) ∧
      ∀ s fs r, parseMembers total n s = .ok fs r → Members reader s fs r := by
  induction n with
  | zero => exact ⟨nofun, nofun, nofun⟩
  | succ n ih =>
      obtain ⟨hvalue, hitems, hmembers⟩ := ih
      refine ⟨fun s v r h => value_of_step hitems hmembers h, fun s vs r h => ?_,
        fun s fs r h => members_of_step hvalue hmembers h⟩
      rcases @spaced_of_step _ _ _ _ _ id _ _ _ hvalue h with
        ⟨v, t, items, hv, hrest, rfl⟩ | ⟨v, hv, rfl⟩
      · exact .more hv (hitems _ _ _ hrest)
      · exact .last hv

/-- **What is accepted is a text of the reader's grammar.** -/
theorem doc_of_parse {v : Tree} (h : parse s = .ok v r) : Doc reader s v := by
  obtain ⟨v', t, hv, h⟩ := andThen_eq_ok.mp h
  obtain ⟨s', hbefore, hvalue⟩ := (sound _ _).1 _ _ _ hv
  dsimp only at h
  split at h
  · rename_i hnil
    obtain ⟨rfl, -⟩ := Outcome.ok.inj h
    exact ⟨(ws_skipWs s).trans hbefore, hvalue, hnil ▸ ws_skipWs t⟩
  · exact nomatch h

end Sound

/-! ## JSON is accepted -/

section Complete

variable {total : Nat} {s s₀ r : Str}

theorem reader_number_ne_nil : ¬reader.number [] := fun h => nomatch h.1

/-- The first character of a number. -/
theorem number_head {t : Str} (h : startsNumber t = true) :
    ∃ c cs, t = c :: cs ∧ (c = '-' ∨ c.isDigit = true) := by
  cases t with
  | nil => exact nomatch h
  | cons c cs =>
      rw [startsNumber, Bool.or_eq_true, beq_iff_eq] at h
      exact ⟨c, cs, rfl, h⟩

theorem number_head_ne {c d : Char} (h : c = '-' ∨ c.isDigit = true)
    (hd : (d == '-' || d.isDigit) = false) : c ≠ d := by
  rintro rfl
  simp only [Bool.or_eq_false_iff, beq_eq_false_iff_ne] at hd
  rcases h with h | h
  · exact hd.1 h
  · exact Bool.false_ne_true (hd.2.symm.trans h)

theorem number_head_not_ws {c : Char} (h : c = '-' ∨ c.isDigit = true) : isWs c = false := by
  have hne : ∀ d, (d == '-' || d.isDigit) = false → (c == d) = false := fun d hd =>
    beq_eq_false_iff_ne.mpr (number_head_ne h hd)
  rw [isWs, hne ' ' rfl, hne '\t' rfl, hne '\n' rfl, hne '\r' rfl]
  rfl

/-- A value begins with neither white space nor a bracket that closes. -/
theorem value_head {v : Tree} (h : Value reader s v r) :
    ∃ c s', s = c :: s' ∧ isWs c = false ∧ c ≠ ']' := by
  cases h with
  | null | true | false | string | emptyArray | array | emptyObject | object =>
      exact ⟨_, _, rfl, by decide, by decide⟩
  | number ht r =>
      obtain ⟨c, cs, rfl, hc⟩ := number_head ht.1
      exact ⟨c, cs ++ r, rfl, number_head_not_ws hc, number_head_ne hc rfl⟩

theorem skipWs_value {v : Tree} (h : Value reader s v r) (hws : Ws s₀ s) : skipWs s₀ = s := by
  obtain ⟨c, s', rfl, hc, -⟩ := value_head h
  exact skipWs_cons hws hc

/-- An array with items does not close where it begins. -/
theorem items_head {vs : List Tree} (h : Items reader s vs r) :
    ∃ c s', skipWs s = c :: s' ∧ c ≠ ']' ∧ Items reader (c :: s') vs r := by
  have hvalue : ∀ {v : Tree} {rest : Str}, Spaced reader s v rest →
      ∃ c s', skipWs s = c :: s' ∧ c ≠ ']' ∧ Spaced reader (c :: s') v rest := by
    rintro v rest ⟨hbefore, hv, hafter⟩
    obtain ⟨c, s', rfl, hc, hclose⟩ := value_head hv
    exact ⟨c, s', skipWs_cons hbefore hc, hclose, .refl _, hv, hafter⟩
  cases h with
  | last hv =>
      obtain ⟨c, s', hs, hclose, hv⟩ := hvalue hv
      exact ⟨c, s', hs, hclose, .last hv⟩
  | more hv hs =>
      obtain ⟨c, s', hskip, hclose, hv⟩ := hvalue hv
      exact ⟨c, s', hskip, hclose, .more hv hs⟩

theorem members_head {fs : List (Str × Tree)} (h : Members reader s fs r) :
    ∃ s', skipWs s = '"' :: s' ∧ Members reader ('"' :: s') fs r := by
  cases h with
  | last hbefore hk hcolon hv => exact ⟨_, skipWs_cons hbefore rfl, .last (.refl _) hk hcolon hv⟩
  | more hbefore hk hcolon hv hs => exact ⟨_, skipWs_cons hbefore rfl, .more (.refl _) hk hcolon hv hs⟩

theorem parseArray_items {loop : Str → Outcome (List Tree)} {vs : List Tree} (h : Items reader s vs r)
    (hloop : ∀ s', s'.length ≤ s.length → Items reader s' vs r → loop s' = .ok vs r) :
    parseArray loop s = .ok (.array vs) r := by
  obtain ⟨c, s', hs, hclose, hitems⟩ := items_head h
  have hlength := skipWs_length_le s
  rw [hs] at hlength
  rw [parseArray, hs]
  dsimp only
  rw [if_neg hclose, hloop _ hlength hitems]
  rfl

theorem parseObject_members {loop : Str → Outcome (List (Str × Tree))} {fs : List (Str × Tree)}
    (h : Members reader s fs r)
    (hloop : ∀ s', s'.length ≤ s.length → Members reader s' fs r → loop s' = .ok fs r) :
    parseObject loop s = .ok (.object fs) r := by
  obtain ⟨s', hs, hmembers⟩ := members_head h
  have hlength := skipWs_length_le s
  rw [hs] at hlength
  rw [parseObject, hs]
  dsimp only
  rw [if_neg (by decide), hloop _ hlength hmembers]
  rfl

theorem parseValue_number {n : Nat} {t : Str} (h : reader.number t) (hr : Delimited r)
    (hws : Ws s₀ (t ++ r)) : parseValue total (n + 1) s₀ = .ok (.number t) r := by
  have hskip := skipWs_value (.number h r) hws
  obtain ⟨c, cs, hc, hhead⟩ := number_head h.1
  rw [← parseNumber_number h hr, parseValue, hskip, hc, List.cons_append]
  dsimp only
  rw [if_neg (number_head_ne hhead rfl), if_neg (number_head_ne hhead rfl),
    if_neg (number_head_ne hhead rfl), if_neg (number_head_ne hhead rfl),
    if_neg (number_head_ne hhead rfl), if_neg (number_head_ne hhead rfl), if_pos hhead]

theorem parseValue_value {n : Nat} {v : Tree}
    (hitems : ∀ s vs r, Items reader s vs r → 2 * s.length + 2 ≤ n → parseItems total n s = .ok vs r)
    (hmembers : ∀ s fs r, Members reader s fs r → 2 * s.length + 2 ≤ n →
      parseMembers total n s = .ok fs r)
    (h : Value reader s v r) (hr : Delimited r) (hws : Ws s₀ s) (hn : 2 * s.length + 1 ≤ n + 1) :
    parseValue total (n + 1) s₀ = .ok v r := by
  have hskip := skipWs_value h hws
  cases h with
  | null =>
      rw [parseValue, hskip]
      exact parseLiteral_append total nullText nullText _ r
  | true =>
      rw [parseValue, hskip]
      exact parseLiteral_append total trueText trueText _ r
  | false =>
      rw [parseValue, hskip]
      exact parseLiteral_append total falseText falseText _ r
  | number ht => exact parseValue_number ht hr hws
  | string hbody =>
      rw [parseValue, hskip]
      show (parseString _).andThen _ = _
      rw [parseString_iff.mpr hbody]
      rfl
  | emptyArray hclose =>
      rw [parseValue, hskip]
      show parseArray _ _ = _
      rw [parseArray, skipWs_cons hclose rfl]
      rfl
  | array h =>
      rw [parseValue, hskip]
      rw [List.length_cons] at hn
      exact parseArray_items h fun s' hlength hs' => hitems s' _ r hs' (by omega)
  | emptyObject hclose =>
      rw [parseValue, hskip]
      show parseObject _ _ = _
      rw [parseObject, skipWs_cons hclose rfl]
      rfl
  | object h =>
      rw [parseValue, hskip]
      rw [List.length_cons] at hn
      exact parseObject_members h fun s' hlength hs' => hmembers s' _ r hs' (by omega)

/-- What stands in the text is read, with fuel for its length. -/
theorem complete (total n : Nat) :
    (∀ s₀ s v r, Value reader s v r → Delimited r → Ws s₀ s → 2 * s.length + 1 ≤ n →
        parseValue total n s₀ = .ok v r) ∧
      (∀ s vs r, Items reader s vs r → 2 * s.length + 2 ≤ n → parseItems total n s = .ok vs r) ∧
      ∀ s fs r, Members reader s fs r → 2 * s.length + 2 ≤ n → parseMembers total n s = .ok fs r := by
  induction n with
  | zero =>
      exact ⟨fun _ _ _ _ _ _ _ hn => absurd hn (by omega), fun _ _ _ _ hn => absurd hn (by omega),
        fun _ _ _ _ hn => absurd hn (by omega)⟩
  | succ n ih =>
      obtain ⟨hvalue, hitems, hmembers⟩ := ih
      refine ⟨fun s₀ s v r h hr hws hn => parseValue_value hitems hmembers h hr hws hn,
        fun s vs r h hn => ?_, fun s fs r h hn => ?_⟩
      · cases h with
        | last hv =>
            obtain ⟨hbefore, hv, hafter⟩ := hv
            have hle := hbefore.length_le
            rw [parseItems, hvalue _ _ _ _ hv (hafter.delimited rfl) hbefore (by omega), andThen_ok,
              skipWs_cons hafter rfl]
            rfl
        | more hv hs =>
            obtain ⟨hbefore, hv, hafter⟩ := hv
            have hle := hbefore.length_le
            have hlt := hv.length_lt reader_number_ne_nil
            have hcomma := hafter.length_le
            rw [List.length_cons] at hcomma
            rw [parseItems, hvalue _ _ _ _ hv (hafter.delimited rfl) hbefore (by omega), andThen_ok,
              skipWs_cons hafter rfl]
            show (parseItems total n _).andThen _ = _
            rw [hitems _ _ _ hs (by omega)]
            rfl
      · cases h with
        | last hbefore hk hcolon hv =>
            obtain ⟨hspace, hv, hafter⟩ := hv
            have hquote := hbefore.length_le
            have hkey := hk.length_lt
            have hcol := hcolon.length_le
            have hle := hspace.length_le
            rw [List.length_cons] at hquote hcol
            rw [parseMembers, skipWs_cons hbefore rfl]
            show (parseString _).andThen _ = _
            rw [parseString_iff.mpr hk, andThen_ok, skipWs_cons hcolon rfl]
            show (parseValue total n _).andThen _ = _
            rw [hvalue _ _ _ _ hv (hafter.delimited rfl) hspace (by omega), andThen_ok,
              skipWs_cons hafter rfl]
            rfl
        | more hbefore hk hcolon hv hs =>
            obtain ⟨hspace, hv, hafter⟩ := hv
            have hquote := hbefore.length_le
            have hkey := hk.length_lt
            have hcol := hcolon.length_le
            have hle := hspace.length_le
            have hlt := hv.length_lt reader_number_ne_nil
            have hcomma := hafter.length_le
            rw [List.length_cons] at hquote hcol hcomma
            rw [parseMembers, skipWs_cons hbefore rfl]
            show (parseString _).andThen _ = _
            rw [parseString_iff.mpr hk, andThen_ok, skipWs_cons hcolon rfl]
            show (parseValue total n _).andThen _ = _
            rw [hvalue _ _ _ _ hv (hafter.delimited rfl) hspace (by omega), andThen_ok,
              skipWs_cons hafter rfl]
            show (parseMembers total n _).andThen _ = _
            rw [hmembers _ _ _ hs (by omega)]
            rfl

/-- **The reader accepts its grammar**, and reads each text as the value that stands there. -/
theorem parse_of_doc {v : Tree} (h : Doc reader s v) : parse s = .ok v [] := by
  obtain ⟨hbefore, hv, hafter⟩ := h
  have hle := hbefore.length_le
  have hskip := skipWs_value hv hbefore
  rw [parse, hskip, (complete _ _).1 _ _ _ _ hv hafter.delimited_end (.refl _) (by omega), andThen_ok]
  dsimp only
  rw [skipWs_nil hafter]
  rfl

end Complete

/-! ## The fuel is enough -/

section Fuel

variable {total : Nat} {s : Str}

theorem parseArray_ne_out {loop : Str → Outcome (List Tree)}
    (hloop : ∀ s', s'.length ≤ s.length → loop s' ≠ .outOfFuel) : parseArray loop s ≠ .outOfFuel := by
  have hlength := skipWs_length_le s
  unfold parseArray
  split
  · exact nofun
  · rename_i c s' hs
    rw [hs] at hlength
    split
    · exact nofun
    · exact andThen_ne_out (hloop _ hlength) fun _ _ _ => nofun

theorem parseObject_ne_out {loop : Str → Outcome (List (Str × Tree))}
    (hloop : ∀ s', s'.length ≤ s.length → loop s' ≠ .outOfFuel) : parseObject loop s ≠ .outOfFuel := by
  have hlength := skipWs_length_le s
  unfold parseObject
  split
  · exact nofun
  · rename_i c s' hs
    rw [hs] at hlength
    split
    · exact nofun
    · exact andThen_ne_out (hloop _ hlength) fun _ _ _ => nofun

theorem step_ne_out {β : Type} {value : Str → Outcome Tree} {loop : Str → Outcome (List β)}
    {wrap : Tree → β} {last : Char} {failure : Char → Str → Str} (hvalue : value s ≠ .outOfFuel)
    (hshorter : ∀ v t, value s = .ok v t → t.length < s.length)
    (hloop : ∀ s', s'.length < s.length → loop s' ≠ .outOfFuel) :
    ((value s).andThen fun v s =>
      match skipWs s with
      | [] => .error endOfInput
      | c :: s =>
          if c = ',' then (loop s).andThen fun items s => .ok (wrap v :: items) s
          else if c = last then .ok [wrap v] s else .error (failure c s)) ≠ .outOfFuel := by
  refine andThen_ne_out hvalue fun v t hv => ?_
  have hlength := skipWs_length_le t
  have hlt := hshorter v t hv
  split
  · exact nofun
  · rename_i c t' ht
    rw [ht, List.length_cons] at hlength
    split
    · exact andThen_ne_out (hloop _ (by omega)) fun _ _ _ => nofun
    · split <;> exact nofun

/-- A value that is read takes something away. -/
theorem parseValue_length {n : Nat} {v : Tree} {r : Str} (h : parseValue total n s = .ok v r) :
    r.length < s.length := by
  obtain ⟨s', hws, hv⟩ := (sound total n).1 _ _ _ h
  exact (hv.length_lt reader_number_ne_nil).trans_le hws.length_le

theorem parseValue_ne_out {n : Nat}
    (hitems : ∀ s, 2 * s.length + 2 ≤ n → parseItems total n s ≠ .outOfFuel)
    (hmembers : ∀ s, 2 * s.length + 2 ≤ n → parseMembers total n s ≠ .outOfFuel)
    (hn : 2 * s.length + 1 ≤ n + 1) : parseValue total (n + 1) s ≠ .outOfFuel := by
  have hlength := skipWs_length_le s
  rw [parseValue]
  split
  · exact nofun
  · rename_i c s' hs
    rw [hs, List.length_cons] at hlength
    by_cases hbrace : c = '\x7b'
    · rw [if_pos hbrace]
      exact parseObject_ne_out fun t ht => hmembers t (by omega)
    by_cases hbracket : c = '['
    · rw [if_neg hbrace, if_pos hbracket]
      exact parseArray_ne_out fun t ht => hitems t (by omega)
    by_cases hquote : c = '"'
    · rw [if_neg hbrace, if_neg hbracket, if_pos hquote]
      exact andThen_ne_out (parseStringFrom_ne_out (Nat.lt_succ_self _)) fun _ _ _ => nofun
    rw [if_neg hbrace, if_neg hbracket, if_neg hquote]
    split
    · exact parseLiteral_ne_out _ _ _ _ _
    · split
      · exact parseLiteral_ne_out _ _ _ _ _
      · split
        · exact parseLiteral_ne_out _ _ _ _ _
        · split
          · exact parseNumber_ne_out _
          · exact nofun

theorem parseMembers_ne_out {n : Nat}
    (hvalue : ∀ s, 2 * s.length + 1 ≤ n → parseValue total n s ≠ .outOfFuel)
    (hmembers : ∀ s, 2 * s.length + 2 ≤ n → parseMembers total n s ≠ .outOfFuel)
    (hn : 2 * s.length + 2 ≤ n + 1) : parseMembers total (n + 1) s ≠ .outOfFuel := by
  have hlength := skipWs_length_le s
  rw [parseMembers]
  split
  · exact nofun
  · rename_i c s' hs
    rw [hs, List.length_cons] at hlength
    split
    · refine andThen_ne_out (parseStringFrom_ne_out (Nat.lt_succ_self _)) fun key t hkey => ?_
      have hstring := (parseString_iff.mp hkey).length_lt
      have hcolon := skipWs_length_le t
      split
      · exact nofun
      · rename_i d t' ht
        rw [ht, List.length_cons] at hcolon
        split
        · exact @step_ne_out _ _ _ _ (fun v => (key, v)) _ _ (hvalue t' (by omega))
            (fun _ _ => parseValue_length) fun u hu => hmembers u (by omega)
        · exact nofun
    · exact nofun

theorem enough (total n : Nat) :
    (∀ s, 2 * s.length + 1 ≤ n → parseValue total n s ≠ .outOfFuel) ∧
      (∀ s, 2 * s.length + 2 ≤ n → parseItems total n s ≠ .outOfFuel) ∧
      ∀ s, 2 * s.length + 2 ≤ n → parseMembers total n s ≠ .outOfFuel := by
  induction n with
  | zero =>
      exact ⟨fun _ hn => absurd hn (by omega), fun _ hn => absurd hn (by omega),
        fun _ hn => absurd hn (by omega)⟩
  | succ n ih =>
      obtain ⟨hvalue, hitems, hmembers⟩ := ih
      refine ⟨fun s hn => parseValue_ne_out hitems hmembers hn, fun s hn => ?_,
        fun s hn => parseMembers_ne_out hvalue hmembers hn⟩
      exact @step_ne_out _ _ _ _ id _ _ (hvalue s (by omega)) (fun _ _ => parseValue_length)
        fun u hu => hitems u (by omega)

/-- **The reader always answers.** -/
theorem parse_ne_out (s : Str) : parse s ≠ .outOfFuel := by
  have hlength := skipWs_length_le s
  refine andThen_ne_out ((enough _ _).1 _ (by omega)) fun v t _ => ?_
  dsimp only
  split <;> exact nofun

end Fuel

/-! ## The reader and RFC 8259 -/

section Agreement

variable {s : Str} {v : Tree}

theorem parse_iff : parse s = .ok v [] ↔ Doc reader s v := ⟨doc_of_parse, parse_of_doc⟩

/-- A text of RFC 8259 without unpaired surrogate escapes is one of the reader's grammar. -/
theorem doc_of_paired (h : Doc rfc8259Paired s v) : Doc reader s v :=
  Spaced.retype (fun _ => False.elim) h fun t ht => reader_of_jsonNumber (h.numbers_mem t ht)

/-- Every number of the text is spelt as RFC 8259 has it, unless the reader's grammar does not have
the text at all. -/
def NumbersSpelt (s : Str) : Prop :=
  (∃ v, Doc reader s v) → ∀ t ∈ numberTokens (.outside []) s, JsonNumber t

/-- What the reader rejects outside RFC 8259. -/
theorem rejects_iff :
    ((∀ v, ¬Doc rfc8259 s v) → ∃ message, parse s = .error message) ↔ NumbersSpelt s := by
  constructor
  · rintro h ⟨v, hv⟩
    by_contra hnot
    have hno : ∀ w, ¬Doc rfc8259 s w := fun w hw => by
      -- the numbers of a derivation are those that the scan finds
      have htokens := hw.tokens rfc8259_lexical
      exact hnot fun t ht => hw.numbers_mem t (htokens ▸ ht)
    obtain ⟨message, herror⟩ := h hno
    exact nomatch herror.symm.trans (parse_iff.mpr hv)
  · intro h hno
    cases hparse : parse s with
    | error message => exact ⟨message, rfl⟩
    | outOfFuel => exact absurd hparse (parse_ne_out s)
    | ok v r =>
        have hv := doc_of_parse hparse
        have hnumbers := h ⟨v, hv⟩
        rw [hv.tokens reader_lexical] at hnumbers
        exact absurd (Spaced.retype (fun _ _ => trivial) hv hnumbers) (hno v)

/-- Numbers that the reader takes and RFC 8259 does not have. -/
example : parse ['[', '0', '1', ',', '-', '.', '5', ']'] =
    .ok (.array [.number ['0', '1'], .number ['-', '.', '5']]) [] := rfl

end Agreement

end Devscout.JsonReader
