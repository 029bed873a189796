/-
# Devscout.Template.Scan -- the scan of a template is safe

The scanner stops only at bytes below `0x80`, behind such bytes, or at the end of the text,
so none of its slices cuts a character. Each of its routines keeps the cursor sound: the
offset is between two characters, and the line is the first one plus the newlines before the
offset. None moves the cursor back, and a construct of markup moves it forward, so the scan
ends, and its pieces cover the text one behind the other.
-/

import Devscout.Template.Markup

namespace Devscout.Template

open Lib

/-! ## Counting newlines -/

section Newlines

variable {bytes : Bytes} {i j start stop : Nat} {b : UInt8}

theorem newlines_append (a b : Bytes) : newlines (a ++ b) = newlines a + newlines b :=
  List.countP_append

theorem newlines_take_succ (h : bytes[i]? = some b) :
    newlines (bytes.take (i + 1)) = newlines (bytes.take i) + if b = 0x0A then 1 else 0 := by
  rw [List.take_add_one, h, newlines_append]
  by_cases hb : b = 0x0A
  · rw [if_pos hb, hb]
    rfl
  · rw [if_neg hb]
    simp [newlines, hb]

/-- Where no newline is passed, none is counted. -/
theorem newlines_take_of_none (hle : i ≤ j) (h : ∀ k, i ≤ k → k < j → bytes[k]? ≠ some 0x0A) :
    newlines (bytes.take j) = newlines (bytes.take i) := by
  induction j with
  | zero => rw [Nat.le_zero.mp hle]
  | succ j ih =>
      rcases Nat.lt_or_eq_of_le hle with hlt | rfl
      · have hrest := ih (by omega) fun k hk hkj => h k hk (by omega)
        have hj := h j (by omega) (Nat.lt_succ_self j)
        cases hget : bytes[j]? with
        | none => rw [List.take_add_one, hget, Option.toList_none, List.append_nil, hrest]
        | some b =>
            rw [newlines_take_succ hget, hrest, if_neg fun hb => hj (by rw [hget, hb]), Nat.add_zero]
      · rfl

theorem newlinesIn_eq (h : start ≤ stop) (h' : stop ≤ bytes.length) :
    ∃ n, newlinesIn bytes start stop = some n ∧
      newlines (bytes.take stop) = newlines (bytes.take start) + n := by
  refine ⟨_, if_pos ⟨h, h'⟩, ?_⟩
  have hsplit := List.take_append_drop start (bytes.take stop)
  rw [List.take_take, Nat.min_eq_left h] at hsplit
  rw [← newlines_append, hsplit]

end Newlines

/-! ## Looking for a needle -/

section Find

variable {bytes needle : Bytes} {from_ i : Nat}

theorem length_le_of_startsWith {bytes : Bytes} (h : startsWith needle bytes = true) :
    needle.length ≤ bytes.length := by
  induction needle generalizing bytes with
  | nil => exact Nat.zero_le _
  | cons n needle ih =>
      cases bytes with
      | nil => cases h
      | cons b bytes =>
          rw [startsWith, Bool.and_eq_true] at h
          exact Nat.succ_le_succ (ih h.2)

theorem findIn_spec {bytes : Bytes} (h : findIn needle bytes = some i) :
    startsWith needle (bytes.drop i) = true := by
  induction bytes generalizing i with
  | nil => cases h
  | cons b bytes ih =>
      rw [findIn] at h
      split at h
      · obtain rfl := Option.some.inj h
        assumption
      · obtain ⟨k, hk, rfl⟩ := Option.map_eq_some_iff.mp h
        exact ih hk

example : find [ascii '<', ascii 'a', ascii '<'] 1 [ascii '<'] = some 2 := by decide +kernel

/-- The needle is found behind the offset, and inside the text. -/
theorem find_spec (h : find bytes from_ needle = some i) :
    from_ ≤ i ∧ startsWith needle (bytes.drop i) = true := by
  obtain ⟨k, hk, rfl⟩ := Option.map_eq_some_iff.mp h
  have hstarts := findIn_spec hk
  rw [List.drop_drop] at hstarts
  exact ⟨Nat.le_add_right _ _, hstarts⟩

theorem findIn_eq_none {bytes : Bytes} (h : findIn needle bytes = none) (i : Nat) (hi : i < bytes.length) :
    startsWith needle (bytes.drop i) = false := by
  induction bytes generalizing i with
  | nil => exact absurd hi (Nat.not_lt_zero i)
  | cons b bytes ih =>
      rw [findIn] at h
      split at h
      · cases h
      · rename_i hno
        cases i with
        | zero => exact Bool.eq_false_iff.mpr hno
        | succ i => exact ih (Option.map_eq_none_iff.mp h) i (Nat.lt_of_succ_lt_succ hi)

theorem lt_length_of_startsWith (hne : needle ≠ []) (h : startsWith needle (bytes.drop i) = true) :
    i + needle.length ≤ bytes.length := by
  have hle := length_le_of_startsWith h
  rw [List.length_drop] at hle
  have hpos := List.length_pos_iff.mpr hne
  omega

/-- The bytes of a needle without letters are those that are found. -/
theorem getElem?_of_startsWith {n : UInt8} {k : Nat} (h : startsWith needle (bytes.drop i) = true)
    (hn : needle[k]? = some n) (hplain : ∀ b, lowerByte n = lowerByte b → b = n) :
    bytes[i + k]? = some n := by
  rw [← List.getElem?_drop]
  generalize bytes.drop i = rest at h ⊢
  induction needle generalizing rest k with
  | nil => cases hn
  | cons n' needle ih =>
      cases rest with
      | nil => cases h
      | cons b rest =>
          rw [startsWith, Bool.and_eq_true, beq_iff_eq] at h
          cases k with
          | zero =>
              obtain rfl := Option.some.inj hn
              rw [hplain b h.1]
              rfl
          | succ k => exact ih hn rest h.2

end Find

/-! ## The cursor -/

/-- The offset is between two characters, and the line counts the newlines before it. -/
structure Sound (text : Str) (firstLine : Nat) (p : Place) : Prop where
  cut : Utf8.Cut text p.i
  line : p.line = firstLine + newlines ((bytesOf text).take p.i)

section Cursor

variable {text : Str} {firstLine : Nat} {p q : Place} {i j n stop : Nat} {b : UInt8}

theorem Sound.le_length (h : Sound text firstLine p) : p.i ≤ (bytesOf text).length := h.cut.le_length

/-- Past bytes below `0x80` the offset is still between two characters. -/
theorem cut_of_passed (hi : Utf8.Cut text i) (hle : i ≤ j)
    (h : ∀ k, i ≤ k → k < j → ∃ b, (bytesOf text)[k]? = some b ∧ b < 0x80) : Utf8.Cut text j := by
  rcases Nat.lt_or_eq_of_le hle with hlt | rfl
  · obtain ⟨b, hb, hlow⟩ := h (j - 1) (by omega) (by omega)
    have hcut := (Utf8.cut_of_ascii hb hlow).2
    rwa [Nat.sub_add_cancel (by omega)] at hcut
  · exact hi

/-- A stop at the end, or at a byte below `0x80`. -/
theorem cut_of_stop (hle : i ≤ (bytesOf text).length)
    (h : ∀ b, (bytesOf text)[i]? = some b → b < 0x80) : Utf8.Cut text i := by
  rcases Nat.lt_or_eq_of_le hle with hlt | rfl
  · have hget := List.getElem?_eq_getElem hlt
    exact (Utf8.cut_of_ascii hget (h _ hget)).1
  · exact Utf8.cut_length text

theorem lt_of_isSpace : ∀ b, isSpace b = true → b < 0x80 := Utf8.forall_byte (by decide +kernel)

theorem lt_of_isNameChar : ∀ b, isNameChar b = true → b < 0x80 ∧ b ≠ 0x0A :=
  Utf8.forall_byte (by decide +kernel)

/-! ## Loops over bytes -/

theorem skipWhile_spec {p : UInt8 → Bool} {bytes : Bytes} (hn : i + n = bytes.length) :
    i ≤ skipWhile p bytes n i ∧ skipWhile p bytes n i ≤ bytes.length ∧
      (∀ k, i ≤ k → k < skipWhile p bytes n i → ∃ b, bytes[k]? = some b ∧ p b = true) ∧
      ∀ b, bytes[skipWhile p bytes n i]? = some b → p b = false := by
  induction n generalizing i with
  | zero =>
      refine ⟨Nat.le_refl i, Nat.le_of_eq hn, fun k hk hlt => absurd hlt (Nat.not_lt.mpr hk), fun b hb => ?_⟩
      rw [skipWhile, List.getElem?_eq_none (by omega)] at hb
      cases hb
  | succ n ih =>
      rw [skipWhile]
      have hget := List.getElem?_eq_getElem (l := bytes) (i := i) (by omega)
      rw [hget, Option.any_some]
      split
      · rename_i hp
        obtain ⟨hle, hend, hpassed, hstop⟩ := ih (i := i + 1) (by omega)
        refine ⟨by omega, hend, fun k hk hlt => ?_, hstop⟩
        rcases Nat.lt_or_eq_of_le hk with hlt' | rfl
        · exact hpassed k hlt' hlt
        · exact ⟨_, hget, hp⟩
      · rename_i hp
        refine ⟨Nat.le_refl i, by omega, fun k hk hlt => absurd hlt (Nat.not_lt.mpr hk), fun b hb => ?_⟩
        rw [hget] at hb
        rw [← Option.some.inj hb]
        exact Bool.eq_false_iff.mpr hp

/-- The name of an attribute takes every byte that does not end it. -/
theorem attrNameEnd_spec (hn : i + n = (bytesOf text).length) :
    i ≤ attrNameEnd text n i ∧ attrNameEnd text n i ≤ (bytesOf text).length ∧
      (∀ k, i ≤ k → k < attrNameEnd text n i →
        ∃ b, (bytesOf text)[k]? = some b ∧ endsAttrName text k b = false) ∧
      ∀ b, (bytesOf text)[attrNameEnd text n i]? = some b →
        endsAttrName text (attrNameEnd text n i) b = true := by
  induction n generalizing i with
  | zero =>
      refine ⟨Nat.le_refl i, Nat.le_of_eq hn, fun k hk hlt => absurd hlt (Nat.not_lt.mpr hk), fun b hb => ?_⟩
      rw [attrNameEnd, List.getElem?_eq_none (by omega)] at hb
      cases hb
  | succ n ih =>
      rw [attrNameEnd]
      have hget := List.getElem?_eq_getElem (l := bytesOf text) (i := i) (by omega)
      rw [hget, Option.any_some]
      split
      · rename_i hgoes
        obtain ⟨hle, hend, hpassed, hstop⟩ := ih (i := i + 1) (by omega)
        refine ⟨by omega, hend, fun k hk hlt => ?_, hstop⟩
        rcases Nat.lt_or_eq_of_le hk with hlt' | rfl
        · exact hpassed k hlt' hlt
        · exact ⟨_, hget, by simpa using hgoes⟩
      · rename_i hends
        refine ⟨Nat.le_refl i, by omega, fun k hk hlt => absurd hlt (Nat.not_lt.mpr hk), fun b hb => ?_⟩
        rw [hget] at hb
        rw [← Option.some.inj hb]
        simpa using hends

theorem lt_of_endsAttrName {c : UInt8} (h : endsAttrName text i c = true) : c < 0x80 := by
  have hbyte : ∀ b, (isSpace b || b == ascii '=' || b == ascii '>' || b == ascii '/') = true → b < 0x80 :=
    Utf8.forall_byte (by decide +kernel)
  refine hbyte c ?_
  unfold endsAttrName at h
  simp only [Bool.or_eq_true, Bool.and_eq_true] at h ⊢
  exact h.imp_right And.left

/-- One byte further, and its newline counted. -/
theorem Sound.step (h : Sound text firstLine p) (hget : (bytesOf text)[p.i]? = some b) (hb : b < 0x80) :
    Sound text firstLine ⟨p.i + 1, p.line + if (bytesOf text)[p.i]? = some 0x0A then 1 else 0⟩ where
  cut := (Utf8.cut_of_ascii hget hb).2
  line := by
    show p.line + _ = _
    rw [newlines_take_succ hget, h.line, hget]
    simp only [Option.some.injEq, Nat.add_assoc]

theorem skipSpace_spec (h : Sound text firstLine p) (hn : p.i + n = (bytesOf text).length) :
    Sound text firstLine (skipSpace text n p) ∧ p.i ≤ (skipSpace text n p).i ∧
      ∀ b, (bytesOf text)[(skipSpace text n p).i]? = some b → isSpace b = false := by
  induction n generalizing p with
  | zero =>
      refine ⟨h, Nat.le_refl _, fun b hb => ?_⟩
      rw [skipSpace, List.getElem?_eq_none (by omega)] at hb
      cases hb
  | succ n ih =>
      rw [skipSpace]
      have hget := List.getElem?_eq_getElem (l := bytesOf text) (i := p.i) (by omega)
      split
      · rename_i hspace
        rw [hget, Option.any_some] at hspace
        obtain ⟨hsound, hle, hstop⟩ := ih (h.step hget (lt_of_isSpace _ hspace)) (by simp only; omega)
        exact ⟨hsound, by simp only at hle; omega, hstop⟩
      · rename_i hspace
        refine ⟨h, Nat.le_refl _, fun b hb => ?_⟩
        rw [hb, Option.any_some] at hspace
        exact Bool.eq_false_iff.mpr hspace

/-- The text up to the next markup: the lines are counted byte by byte. -/
theorem nextMarkup_spec (hline : p.line = firstLine + newlines ((bytesOf text).take p.i))
    (hn : p.i + n = (bytesOf text).length) :
    Sound text firstLine (nextMarkup text n p) ∧ p.i ≤ (nextMarkup text n p).i ∧
      ((nextMarkup text n p).i < (bytesOf text).length →
        (bytesOf text)[(nextMarkup text n p).i]? = some (ascii '<') ∧
          startsMarkup text (nextMarkup text n p).i = true) := by
  induction n generalizing p with
  | zero =>
      refine ⟨⟨?_, hline⟩, Nat.le_refl _, fun hlt => absurd hlt (by rw [nextMarkup]; omega)⟩
      rw [nextMarkup, show p.i = (bytesOf text).length by omega]
      exact Utf8.cut_length text
  | succ n ih =>
      rw [nextMarkup]
      split
      · rename_i hmarkup
        exact ⟨⟨(Utf8.cut_of_ascii hmarkup.1 (by decide)).1, hline⟩, Nat.le_refl _, fun _ => hmarkup⟩
      · have hget := List.getElem?_eq_getElem (l := bytesOf text) (i := p.i) (by omega)
        have hnext : p.line + (if (bytesOf text)[p.i]? = some 0x0A then 1 else 0) =
            firstLine + newlines ((bytesOf text).take (p.i + 1)) := by
          rw [newlines_take_succ hget, hline, hget]
          simp only [Option.some.injEq, Nat.add_assoc]
        obtain ⟨hsound, hle, hstop⟩ := ih (p := ⟨p.i + 1, _⟩) hnext (by simp only; omega)
        exact ⟨hsound, by simp only at hle; omega, hstop⟩

/-! ## Slices and moves -/

/-- A text stands at a place of the template. -/
def Stands (text : Str) (firstLine : Nat) (value : Str) (p : Place) : Prop :=
  ∃ before after, text = before ++ (value ++ after) ∧ p.i = (Utf8.encode before).length ∧
    p.line = firstLine + newlines (Utf8.encode before)

theorem Sound.slice (h : Sound text firstLine p) (hstop : Utf8.Cut text stop) (hle : p.i ≤ stop) :
    ∃ value, Text.slice p.i stop text = some value ∧ Stands text firstLine value p ∧
      p.i + (Utf8.encode value).length = stop := by
  obtain ⟨before, value, after, rfl, hslice, hi, hlen⟩ := Utf8.slice_of_cuts h.cut hstop hle
  refine ⟨value, hslice, ⟨before, after, rfl, hi.symm, ?_⟩, by omega⟩
  rw [h.line, ← hi, bytesOf, Utf8.encode_append, List.take_left]

theorem advanceTo_spec (stop : Nat) (h : Sound text firstLine p) (hle : p.i ≤ stop)
    (hcut : stop < (bytesOf text).length → Utf8.Cut text stop) :
    ∃ q, advanceTo text p stop = some q ∧ Sound text firstLine q ∧
      q.i = min stop (bytesOf text).length := by
  have hmin : p.i ≤ min stop (bytesOf text).length := Nat.le_min.mpr ⟨hle, h.le_length⟩
  obtain ⟨n, hn, hcount⟩ := newlinesIn_eq hmin (Nat.min_le_right _ _)
  refine ⟨⟨_, p.line + n⟩, ?_, ⟨?_, ?_⟩, rfl⟩
  · unfold advanceTo
    dsimp only [bind, Option.bind]
    rw [hn]
  · dsimp only
    rcases Nat.lt_or_ge stop (bytesOf text).length with hlt | hge
    · rw [Nat.min_eq_left (Nat.le_of_lt hlt)]
      exact hcut hlt
    · rw [Nat.min_eq_right hge]
      exact Utf8.cut_length text
  · rw [hcount, h.line, Nat.add_assoc]

/-- A name ends behind bytes below `0x80`, none of them a newline. -/
theorem name_spec (h : Sound text firstLine p) :
    ∃ tag stop, name_ text p.i = some (tag, stop) ∧ p.i ≤ stop ∧ Sound text firstLine ⟨stop, p.line⟩ := by
  obtain ⟨hle, -, hpassed, -⟩ := skipWhile_spec (p := isNameChar) (Nat.add_sub_of_le h.le_length)
  have hcut := cut_of_passed h.cut hle fun k hk hlt => by
    obtain ⟨b, hb, hname⟩ := hpassed k hk hlt
    exact ⟨b, hb, (lt_of_isNameChar b hname).1⟩
  obtain ⟨tag, htag, -⟩ := h.slice hcut hle
  refine ⟨tag, _, by unfold name_; dsimp only; rw [htag]; rfl, hle, hcut, ?_⟩
  show p.line = _
  rw [h.line, newlines_take_of_none hle fun k hk hlt hnl => ?_]
  obtain ⟨b, hb, hname⟩ := hpassed k hk hlt
  rw [hb] at hnl
  exact (lt_of_isNameChar b hname).2 (Option.some.inj hnl)

/-- A byte that is found only as itself. -/
def Plain (n : UInt8) : Prop := n < 0x80 ∧ ∀ b, lowerByte n = lowerByte b → b = n

theorem plain_of_mem : ∀ n ∈ [ascii '<', ascii '>', ascii '-', ascii '/', ascii '"', ascii '\'', ascii '\x7b',
    ascii '\x7d'], Plain n := by
  intro n hn
  simp only [List.mem_cons, List.not_mem_nil, or_false] at hn
  rcases hn with rfl | rfl | rfl | rfl | rfl | rfl | rfl | rfl <;>
    exact ⟨by decide, Utf8.forall_byte (by decide +kernel)⟩

/-- A letter is found in either case. -/
example : find [ascii '-', ascii 'A'] 0 [ascii 'a'] = some 1 := by decide +kernel

/-- The offsets around a byte of what is found. -/
theorem cut_of_find {needle : Bytes} {from_ found k : Nat} {c : UInt8}
    (h : find (bytesOf text) from_ needle = some found) (hc : needle[k]? = some c) (hplain : Plain c) :
    (bytesOf text)[found + k]? = some c ∧ Utf8.Cut text (found + k) ∧ Utf8.Cut text (found + k + 1) := by
  have hget := getElem?_of_startsWith (find_spec h).2 hc hplain.2
  exact ⟨hget, Utf8.cut_of_ascii hget hplain.1⟩

/-! ## Attributes -/

/-- The places of an attribute are sound, and its value stands where it is said to. -/
structure AttrSound (text : Str) (firstLine : Nat) (a : Attr) : Prop where
  place : Sound text firstLine a.place
  value : ∀ value p, a.value = some (value, p) → Stands text firstLine value p

/-- A quote that no other one follows. -/
def Unclosed (text : Str) (p : Place) : Prop :=
  ∃ quote, (quote = ascii '"' ∨ quote = ascii '\'') ∧ (bytesOf text)[p.i]? = some quote ∧
    ∀ k, p.i < k → (bytesOf text)[k]? ≠ some quote

theorem peek_eq (h : peek_ text i n ≠ 0) : (bytesOf text)[i + n]? = some (peek_ text i n) := by
  unfold peek_ at h ⊢
  cases hget : (bytesOf text)[i + n]? with
  | none =>
      rw [hget] at h
      exact absurd rfl h
  | some b => rfl

theorem peek_zero_eq (h : peek_ text i 0 ≠ 0) : (bytesOf text)[i]? = some (peek_ text i 0) := peek_eq h

theorem left_add (h : Sound text firstLine p) : p.i + left text p = (bytesOf text).length :=
  Nat.add_sub_of_le h.le_length

/-- A byte of markup is passed without a newline. -/
theorem Sound.next (h : Sound text firstLine p) (hget : (bytesOf text)[p.i]? = some b) (hb : b < 0x80)
    (hnl : b ≠ 0x0A) : Sound text firstLine ⟨p.i + 1, p.line⟩ := by
  have hstep := h.step hget hb
  rwa [hget, if_neg fun heq => hnl (Option.some.inj heq), Nat.add_zero] at hstep

/-- What an attribute comes to. -/
inductive AttrEnds (text : Str) (firstLine : Nat) (p : Place) : AttrResult → Prop
  | read {a : Attr} {q : Place} (ha : AttrSound text firstLine a) (hq : Sound text firstLine q)
      (hlt : p.i < q.i) : AttrEnds text firstLine p (.read a q)
  | unclosed {q : Place} (hq : Sound text firstLine q) (hlt : p.i < q.i) (h : Unclosed text q) :
      AttrEnds text firstLine p (.unclosed q)

theorem attrValue_spec {name : Str} {place : Place} (hplace : Sound text firstLine place)
    (h : Sound text firstLine p) (hlt : place.i < p.i) :
    ∃ r, attrValue text name place p = some r ∧ AttrEnds text firstLine place r := by
  obtain ⟨hv, hle, -⟩ := skipSpace_spec h (left_add h)
  unfold attrValue
  dsimp only
  generalize skipSpace text (left text p) p = v at hv hle ⊢
  split
  · rename_i hquote
    rw [Bool.or_eq_true, beq_iff_eq, beq_iff_eq] at hquote
    have hget : (bytesOf text)[v.i]? = some (peek_ text v.i 0) := by
      refine peek_zero_eq fun hzero => ?_
      rw [hzero] at hquote
      exact absurd hquote (by decide)
    have hplain : Plain (peek_ text v.i 0) := by
      rcases hquote with hq | hq
      · exact plain_of_mem _ (by rw [hq]; decide)
      · exact plain_of_mem _ (by rw [hq]; decide)
    have hnl : peek_ text v.i 0 ≠ 0x0A := by
      rintro hzero
      rw [hzero] at hquote
      exact absurd hquote (by decide)
    have hinner : Sound text firstLine ⟨v.i + 1, v.line⟩ := hv.next hget hplain.1 hnl
    cases hfind : find (bytesOf text) (v.i + 1) [peek_ text v.i 0] with
    | none =>
        refine ⟨_, rfl, .unclosed hv (by omega) ⟨_, hquote, hget, fun k hk hclose => ?_⟩⟩
        have hlen := (List.getElem?_eq_some_iff.mp hclose).1
        have hnone := findIn_eq_none (Option.map_eq_none_iff.mp hfind) (k - (v.i + 1))
          (by rw [List.length_drop]; omega)
        rw [List.drop_drop, Nat.add_sub_of_le hk, List.drop_eq_getElem_cons hlen] at hnone
        rw [List.getElem?_eq_getElem hlen] at hclose
        rw [Option.some.inj hclose] at hnone
        simp [startsWith] at hnone
    | some stop =>
        obtain ⟨-, hcut, hcut'⟩ := cut_of_find (k := 0) hfind rfl hplain
        rw [Nat.add_zero] at hcut hcut'
        have hfound := (find_spec hfind).1
        obtain ⟨value, hvalue, hstands, -⟩ := hinner.slice hcut hfound
        obtain ⟨q, hq, hsound, hqi⟩ := advanceTo_spec (stop + 1) hv (by omega) fun _ => hcut'
        have hend := hcut'.le_length
        refine ⟨.read ⟨name, place, some (value, ⟨v.i + 1, v.line⟩)⟩ q, ?_, .read ⟨hplace, ?_⟩ hsound ?_⟩
        · dsimp only [bind, Option.bind]
          rw [hvalue]
          dsimp only
          rw [hq]
        · rintro value' p' heq
          obtain ⟨rfl, rfl⟩ := Prod.mk.inj (Option.some.inj heq)
          exact hstands
        · rw [hqi, Nat.min_eq_left hend]
          omega
  · obtain ⟨hskip, hend, hpassed, hstop⟩ := skipWhile_spec (p := fun b => !isSpace b && b != ascii '>')
      (left_add hv)
    generalize skipWhile (fun b => !isSpace b && b != ascii '>') (bytesOf text) (left text v) v.i = stop
      at hskip hend hpassed hstop ⊢
    have hcut : Utf8.Cut text stop := cut_of_stop hend fun b hb => by
      have hbyte : ∀ b, (!isSpace b && b != ascii '>') = false → b < 0x80 :=
        Utf8.forall_byte (by decide +kernel)
      exact hbyte b (hstop b hb)
    obtain ⟨value, hvalue, hstands, -⟩ := hv.slice hcut hskip
    refine ⟨.read ⟨name, place, some (value, v)⟩ ⟨stop, v.line⟩, ?_, .read ⟨hplace, ?_⟩ ⟨hcut, ?_⟩ ?_⟩
    · dsimp only [bind, Option.bind]
      rw [hvalue]
    · rintro value' p' heq
      obtain ⟨rfl, rfl⟩ := Prod.mk.inj (Option.some.inj heq)
      exact hstands
    · show v.line = _
      rw [hv.line, newlines_take_of_none hskip fun k hk hlt hnl => ?_]
      obtain ⟨b, hb, hgoes⟩ := hpassed k hk hlt
      rw [hb] at hnl
      rw [Option.some.inj hnl] at hgoes
      exact absurd hgoes (by decide)
    · show place.i < stop
      omega

/-- The name of an attribute, a single byte where it starts with one that ends it. -/
theorem attrName_spec (h : Sound text firstLine p) (hget : (bytesOf text)[p.i]? = some b)
    (hspace : isSpace b = false) :
    ∃ stop, (if attrNameEnd text (left text p) p.i = p.i then p.i + 1
        else attrNameEnd text (left text p) p.i) = stop ∧
      p.i < stop ∧ Sound text firstLine ⟨stop, p.line⟩ := by
  have hnl : ∀ c, isSpace c = false → c ≠ 0x0A := Utf8.forall_byte (by decide +kernel)
  obtain ⟨hle, hend, hpassed, hstop⟩ := attrNameEnd_spec (left_add h)
  generalize attrNameEnd text (left text p) p.i = stop at hle hend hpassed hstop ⊢
  by_cases heq : stop = p.i
  · subst heq
    refine ⟨_, if_pos rfl, Nat.lt_succ_self _, ?_⟩
    exact h.next hget (lt_of_endsAttrName (hstop b hget)) (hnl b hspace)
  · refine ⟨_, if_neg heq, by omega, cut_of_stop hend fun b hb => lt_of_endsAttrName (hstop b hb), ?_⟩
    show p.line = _
    rw [h.line, newlines_take_of_none hle fun k hk hlt hline => ?_]
    obtain ⟨c, hc, hgoes⟩ := hpassed k hk hlt
    rw [hc] at hline
    unfold endsAttrName at hgoes
    simp only [Bool.or_eq_false_iff] at hgoes
    exact hnl c hgoes.1.1.1 (Option.some.inj hline)

theorem attr_spec (h : Sound text firstLine p) (hget : (bytesOf text)[p.i]? = some b)
    (hspace : isSpace b = false) : ∃ r, attr text p = some r ∧ AttrEnds text firstLine p r := by
  obtain ⟨stop, hstop, hlt, hnamed⟩ := attrName_spec h hget hspace
  obtain ⟨name, hname, -⟩ := h.slice hnamed.cut (Nat.le_of_lt hlt)
  obtain ⟨hq, hle, -⟩ := skipSpace_spec hnamed (left_add hnamed)
  unfold attr
  dsimp only [bind, Option.bind]
  rw [hstop, hname]
  dsimp only
  generalize skipSpace text (left text ⟨stop, p.line⟩) ⟨stop, p.line⟩ = q at hq hle ⊢
  dsimp only at hle
  split
  · rename_i heq
    rw [beq_iff_eq] at heq
    have hget' : (bytesOf text)[q.i]? = some (ascii '=') := by
      rw [← heq]
      exact peek_zero_eq (by rw [heq]; decide)
    exact attrValue_spec h (hq.next hget' (by decide) (by decide)) (by show p.i < q.i + 1; omega)
  · refine ⟨_, rfl, .read ⟨h, fun value p' hnone => ?_⟩ hq (by omega)⟩
    cases hnone

/-! ## Constructs of markup -/

/-- What the attributes of a start tag come to. -/
inductive TagEnds (text : Str) (firstLine : Nat) (p : Place) : TagResult → Prop
  | ended {attrs : List Attr} {closes : Bool} {q : Place} (ha : ∀ a ∈ attrs, AttrSound text firstLine a)
      (hq : Sound text firstLine q) (hle : p.i ≤ q.i) : TagEnds text firstLine p (.ended attrs closes q)
  | unclosed {q : Place} (hq : Sound text firstLine q) (hle : p.i ≤ q.i) (h : Unclosed text q) :
      TagEnds text firstLine p (.unclosed q)

/-- Every turn takes a byte at least, so the loop ends in time. -/
theorem attrsFrom_spec (turns : Nat) (closes : Bool) (h : Sound text firstLine p)
    (hturns : (bytesOf text).length < p.i + turns) :
    ∃ r, attrsFrom text turns closes p = some r ∧ TagEnds text firstLine p r := by
  induction turns generalizing p with
  | zero =>
      have hle := h.le_length
      omega
  | succ turns ih =>
      obtain ⟨hq, hle, hspace⟩ := skipSpace_spec h (left_add h)
      rw [attrsFrom]
      generalize skipSpace text (left text p) p = q at hq hle hspace ⊢
      by_cases hzero : peek_ text q.i 0 = 0
      · rw [if_pos (by rw [hzero]; rfl)]
        exact ⟨_, rfl, .ended (fun a ha => absurd ha List.not_mem_nil) hq hle⟩
      · rw [if_neg (by rwa [beq_iff_eq])]
        have hget := peek_zero_eq hzero
        have hnext : ∀ c, (peek_ text q.i 0 == ascii c) = true → ascii c < 0x80 → ascii c ≠ 0x0A →
            Sound text firstLine ⟨q.i + 1, q.line⟩ := by
          intro c hc hlow hnl
          rw [beq_iff_eq] at hc
          rw [hc] at hget
          exact hq.next hget hlow hnl
        split
        · rename_i hgt
          exact ⟨_, rfl, .ended (fun a ha => absurd ha List.not_mem_nil) (hnext _ hgt (by decide) (by decide))
            (Nat.le_succ_of_le hle)⟩
        · split
          · rename_i hslash
            have hone := hnext _ hslash (by decide) (by decide)
            split
            · rename_i hgt
              rw [beq_iff_eq] at hgt
              have hget' : (bytesOf text)[q.i + 1]? = some (ascii '>') := by
                rw [← hgt]
                exact peek_eq (by rw [hgt]; decide)
              exact ⟨_, rfl, .ended (fun a ha => absurd ha List.not_mem_nil)
                (hone.next hget' (by decide) (by decide)) (by show p.i ≤ q.i + 2; omega)⟩
            · obtain ⟨r, hr, hends⟩ := ih hone (by show _ < q.i + 1 + turns; omega)
              refine ⟨r, hr, ?_⟩
              cases hends with
              | ended ha hs hle' => exact .ended ha hs (by dsimp only at hle'; omega)
              | unclosed hs hle' hopen => exact .unclosed hs (by dsimp only at hle'; omega) hopen
          · obtain ⟨r, hr, hattr⟩ := attr_spec hq hget (hspace _ hget)
            rw [hr]
            cases hattr with
            | @read a q' ha hq' hlt =>
                obtain ⟨r, hr, hends⟩ := ih hq' (by omega)
                refine ⟨r.cons a, by dsimp only [bind, Option.bind]; rw [hr], ?_⟩
                cases hends with
                | ended ha' hs hle' =>
                    exact .ended (List.forall_mem_cons.mpr ⟨ha, ha'⟩) hs (by omega)
                | unclosed hs hle' hopen => exact .unclosed hs (by omega) hopen
            | unclosed hq' hlt hopen => exact ⟨_, rfl, .unclosed hq' (by omega) hopen⟩

/-- The places of an event are sound. -/
inductive EventSound (text : Str) (firstLine : Nat) : Event → Prop
  | open_ {tag : Str} {attrs : List Attr} {closes : Bool} (h : ∀ a ∈ attrs, AttrSound text firstLine a) :
      EventSound text firstLine (.open_ tag attrs closes)
  | close {tag : Str} : EventSound text firstLine (.close tag)
  | interp {expr : Str} {p : Place} (h : Stands text firstLine expr p) :
      EventSound text firstLine (.interp expr p)
  | gap {p : Place} {reason : GapReason}
      (h : p.line = firstLine + newlines ((bytesOf text).take p.i)) : EventSound text firstLine (.gap p reason)

/-- What a construct of markup comes to. -/
structure MarkupEnds (text : Str) (firstLine : Nat) (p : Place) (m : Markup) : Prop where
  sound : Sound text firstLine m.place
  forward : p.i < m.place.i
  events : ∀ e ∈ m.events, EventSound text firstLine e
  unclosed : m.goesOn = false → Unclosed text m.place
  one : m.events.length ≤ 1

theorem startTag_spec (h : Sound text firstLine p) (hget : (bytesOf text)[p.i]? = some (ascii '<')) :
    ∃ m, startTag text p = some m ∧ MarkupEnds text firstLine p m := by
  obtain ⟨tag, stop, htag, hle, hnamed⟩ := name_spec (h.next hget (by decide) (by decide))
  dsimp only at htag hle
  obtain ⟨r, hr, hends⟩ := attrsFrom_spec ((bytesOf text).length + 1)
    (VOID_ELEMENTS.contains (lowerName tag)) hnamed (by show _ < stop + _; omega)
  unfold startTag
  dsimp only [bind, Option.bind]
  rw [htag]
  dsimp only
  rw [hr]
  dsimp only
  cases hends with
  | @ended attrs closes q ha hq hle' =>
      dsimp only at hle' ⊢
      have hevents : ∀ e ∈ [Event.open_ tag attrs closes], EventSound text firstLine e :=
        List.forall_mem_singleton.mpr (.open_ ha)
      split
      · -- a raw element goes on to its end tag, or to the end of the text
        cases hfind : find (bytesOf text) q.i (Utf8.encode ("</".toList ++ lowerName tag)) with
        | none =>
            obtain ⟨q', hq', hsound, hqi⟩ := advanceTo_spec _ hq hq.le_length fun hlt =>
              absurd hlt (Nat.lt_irrefl _)
            rw [Option.getD_none, hq']
            rw [Nat.min_self] at hqi
            have hlen := hq.le_length
            exact ⟨_, rfl, hsound, by show p.i < q'.i; omega, hevents, (fun hstop => by cases hstop), Nat.le_refl 1⟩
        | some found =>
            obtain ⟨-, hcut, -⟩ := cut_of_find (k := 0) hfind rfl (plain_of_mem (ascii '<') (by decide))
            rw [Nat.add_zero] at hcut
            have hfound := (find_spec hfind).1
            obtain ⟨q', hq', hsound, hqi⟩ := advanceTo_spec _ hq hfound fun _ => hcut
            rw [Option.getD_some, hq']
            rw [Nat.min_eq_left hcut.le_length] at hqi
            exact ⟨_, rfl, hsound, by show p.i < q'.i; omega, hevents, (fun hstop => by cases hstop), Nat.le_refl 1⟩
      · exact ⟨_, rfl, hq, by show p.i < q.i; omega, hevents, (fun hstop => by cases hstop), Nat.le_refl 1⟩
  | @unclosed q hq hle' hopen =>
      dsimp only at hle' ⊢
      exact ⟨_, rfl, hq, by show p.i < q.i; omega, List.forall_mem_singleton.mpr (.gap hq.line),
        fun _ => hopen, Nat.le_refl 1⟩

/-- A move to behind a closing byte, or to the end of the text. -/
theorem advancePast_spec (needle : Bytes) (from_ : Nat) {n k : Nat} (h : Sound text firstLine p)
    (hfrom : p.i ≤ from_) (hc : needle[k]? = some (ascii '>'))
    (hn : n = k + 1) :
    ∃ q, advanceTo text p (((find (bytesOf text) from_ needle).map (· + n)).getD (bytesOf text).length) =
      some q ∧ Sound text firstLine q ∧ (from_ < q.i ∨ q.i = (bytesOf text).length) := by
  cases hfind : find (bytesOf text) from_ needle with
  | none =>
      obtain ⟨q, hq, hsound, hqi⟩ := advanceTo_spec _ h h.le_length fun hlt => absurd hlt (Nat.lt_irrefl _)
      rw [Nat.min_self] at hqi
      exact ⟨q, hq, hsound, Or.inr hqi⟩
  | some found =>
      subst hn
      obtain ⟨-, -, hcut⟩ := cut_of_find hfind hc (plain_of_mem (ascii '>') (by decide))
      rw [Nat.add_assoc] at hcut
      have hfound := (find_spec hfind).1
      obtain ⟨q, hq, hsound, hqi⟩ := advanceTo_spec (found + (k + 1)) h (by omega) fun _ => hcut
      rw [Nat.min_eq_left hcut.le_length] at hqi
      exact ⟨q, hq, hsound, Or.inl (by omega)⟩

/-- **A construct of markup.** It is read without a bad access, and it takes bytes. -/
theorem markup_spec (h : Sound text firstLine p) (hget : (bytesOf text)[p.i]? = some (ascii '<')) :
    ∃ m, markup text p = some m ∧ MarkupEnds text firstLine p m := by
  have hlt : p.i < (bytesOf text).length := (List.getElem?_eq_some_iff.mp hget).1
  have hquiet : ∀ {q : Place}, Sound text firstLine q → p.i < q.i → ∀ {es : List Event},
      (∀ e ∈ es, EventSound text firstLine e) → es.length ≤ 1 → MarkupEnds text firstLine p ⟨es, q, true⟩ :=
    fun hq hlt _ hes hone => ⟨hq, hlt, hes, (fun hstop => by cases hstop), hone⟩
  unfold markup
  dsimp only [bind, Option.bind]
  split
  · rename_i hcomment
    have hlen := (List.isPrefixOf_iff_prefix.mp hcomment).length_le
    rw [List.length_drop] at hlen
    simp only [List.length_cons, List.length_nil] at hlen
    obtain ⟨q, hq, hsound, hqi⟩ := advancePast_spec (k := 2) (n := 3)
      [ascii '-', ascii '-', ascii '>'] (p.i + 4) h (by omega) rfl rfl
    rw [hq]
    exact ⟨_, rfl, hquiet hsound (by omega) (fun e he => absurd he List.not_mem_nil) (Nat.zero_le 1)⟩
  · split
    · obtain ⟨q, hq, hsound, hqi⟩ := advancePast_spec (k := 0) (n := 1) [ascii '>'] p.i h
        (Nat.le_refl _) rfl rfl
      rw [hq]
      exact ⟨_, rfl, hquiet hsound (by omega) (fun e he => absurd he List.not_mem_nil) (Nat.zero_le 1)⟩
    · split
      · rename_i hslash
        rw [beq_iff_eq] at hslash
        have hone := h.next hget (by decide) (by decide)
        have hget' : (bytesOf text)[p.i + 1]? = some (ascii '/') := by
          rw [← hslash]
          exact peek_eq (by rw [hslash]; decide)
        obtain ⟨tag, stop, htag, hle, hnamed⟩ := name_spec (hone.next hget' (by decide) (by decide))
        dsimp only at htag hle
        obtain ⟨q, hq, hsound, hqi⟩ := advancePast_spec (k := 0) (n := 1) [ascii '>'] stop
          hnamed (Nat.le_refl _) rfl rfl
        have hstop := hnamed.le_length
        dsimp only at hstop
        rw [show p.i + 2 = p.i + 1 + 1 from rfl, htag]
        dsimp only
        rw [hq]
        exact ⟨_, rfl, hquiet hsound (by omega) (List.forall_mem_singleton.mpr .close) (Nat.le_refl 1)⟩
      · exact startTag_spec h hget

end Cursor

/-! ## Runs of text -/

/-- A place of a text that starts at an offset of the template. -/
def Place.shift (base : Nat) (q : Place) : Place := ⟨base + q.i, q.line⟩

/-- What an interpolation comes to: the expression stands where it is said to, or the braces that
never close do. -/
inductive PieceSound (text : Str) (base firstLine : Nat) : Except Place (Str × Place) → Prop
  | ok {expr : Str} {q : Place} (h : Stands text firstLine expr q) :
      PieceSound text base firstLine (.ok (expr, q.shift base))
  | error {q : Place} (h : Sound text firstLine q) : PieceSound text base firstLine (.error (q.shift base))

/-- The expressions of events stand one behind the other, from one offset to another. -/
def InOrder (stop : Nat) : Nat → List Event → Prop
  | start, [] => start ≤ stop
  | start, .interp expr q :: es => start ≤ q.i ∧ InOrder stop (q.i + (Utf8.encode expr).length) es
  | start, _ :: es => InOrder stop start es

theorem InOrder.of_le {stop start start' : Nat} {es : List Event} (h : InOrder stop start es)
    (hle : start' ≤ start) : InOrder stop start' es := by
  induction es generalizing start start' with
  | nil => exact Nat.le_trans hle h
  | cons e es ih =>
      cases e with
      | interp expr q => exact ⟨Nat.le_trans hle h.1, h.2⟩
      | _ => exact ih h hle

/-- Gaps name a line and take no text. -/
theorem InOrder.gaps {stop start : Nat} {es : List Event} {α : Type} (f : α → Place) (reason : GapReason)
    (xs : List α) (h : InOrder stop start es) :
    InOrder stop start (xs.map (fun x => Event.gap (f x) reason) ++ es) := by
  induction xs with
  | nil => exact h
  | cons x xs ih => exact ih

section Text

variable {text : Str} {firstLine base i n : Nat} {p q : Place}

theorem interpolationsFrom_spec {turns line : Nat} (h : Sound text firstLine ⟨i, line⟩)
    (hturns : (bytesOf text).length < i + turns) :
    ∃ pieces, interpolationsFrom text base turns i line = some pieces ∧
      (∀ piece ∈ pieces, PieceSound text base firstLine piece) ∧
      InOrder (base + (bytesOf text).length) (base + i) (pieces.map pieceEvent) := by
  induction turns generalizing i line with
  | zero =>
      have hle := h.le_length
      dsimp only at hle
      omega
  | succ turns ih =>
      rw [interpolationsFrom]
      dsimp only
      cases hopen : find (Utf8.encode text) i [ascii '\x7b', ascii '\x7b'] with
      | none =>
          exact ⟨[], rfl, fun piece hpiece => absurd hpiece List.not_mem_nil,
            Nat.add_le_add_left h.le_length base⟩
      | some open_ =>
          have hbrace := plain_of_mem (ascii '\x7b') (by decide)
          obtain ⟨hget, hcut, -⟩ := cut_of_find (k := 0) hopen rfl hbrace
          obtain ⟨hget', -, hcut'⟩ := cut_of_find (k := 1) hopen rfl hbrace
          rw [Nat.add_zero] at hget hcut
          have hfound := (find_spec hopen).1
          obtain ⟨passed, hpassed, hcount⟩ := newlinesIn_eq hfound hcut.le_length
          have hline : line + passed = firstLine + newlines ((bytesOf text).take open_) := by
            rw [hcount, ← Nat.add_assoc, ← h.line]
          have hat : Sound text firstLine ⟨open_, line + passed⟩ := ⟨hcut, hline⟩
          have hinner : Sound text firstLine ⟨open_ + 2, line + passed⟩ :=
            (hat.next hget (by decide) (by decide)).next hget' (by decide) (by decide)
          dsimp only [bind, Option.bind]
          rw [hpassed]
          dsimp only
          cases hclose : find (Utf8.encode text) (open_ + 2) [ascii '\x7d', ascii '\x7d'] with
          | none =>
              exact ⟨_, rfl, List.forall_mem_singleton.mpr (.error hat), Nat.add_le_add_left h.le_length base⟩
          | some close =>
              have hbrace' := plain_of_mem (ascii '\x7d') (by decide)
              obtain ⟨hend, hecut, -⟩ := cut_of_find (k := 0) hclose rfl hbrace'
              obtain ⟨hend', -, hecut'⟩ := cut_of_find (k := 1) hclose rfl hbrace'
              rw [Nat.add_zero] at hend hecut
              have hbehind := (find_spec hclose).1
              obtain ⟨expr, hexpr, hstands, hlen⟩ := hinner.slice hecut hbehind
              dsimp only at hlen
              obtain ⟨after, hafter, hcount'⟩ := newlinesIn_eq (show open_ ≤ close by omega) hecut.le_length
              have hclosed : Sound text firstLine ⟨close, line + passed + after⟩ :=
                ⟨hecut, by rw [hcount', ← Nat.add_assoc, ← hline]⟩
              have hrest : Sound text firstLine ⟨close + 2, line + passed + after⟩ :=
                (hclosed.next hend (by decide) (by decide)).next hend' (by decide) (by decide)
              obtain ⟨pieces, hpieces, hall, horder⟩ := ih hrest (by omega)
              refine ⟨.ok (expr, ⟨base + (open_ + 2), line + passed⟩) :: pieces, ?_,
                List.forall_mem_cons.mpr ⟨.ok hstands, hall⟩, ?_, horder.of_le ?_⟩
              rotate_left
              · show base + i ≤ base + (open_ + 2)
                omega
              · show base + (open_ + 2) + (Utf8.encode expr).length ≤ base + (close + 2)
                omega
              dsimp only
              rw [hexpr]
              dsimp only
              rw [hafter]
              dsimp only
              rw [hpieces]

theorem sound_start (text : Str) (line : Nat) : Sound text line ⟨0, line⟩ := ⟨Utf8.cut_zero text, rfl⟩

/-- **Interpolations of any text.** -/
theorem interpolations_spec (text : Str) (first : Place) :
    ∃ pieces, interpolations text first = some pieces ∧
      (∀ piece ∈ pieces, PieceSound text first.i first.line piece) ∧
      InOrder (first.i + (bytesOf text).length) first.i (pieces.map pieceEvent) :=
  interpolationsFrom_spec (sound_start text first.line)
    (show (bytesOf text).length < 0 + ((bytesOf text).length + 1) by omega)

theorem blockLinesFrom_spec {line : Nat} {last : Option Nat}
    (hline : line = firstLine + newlines ((bytesOf text).take i)) (hn : i + n = (bytesOf text).length) :
    ∃ places, blockLinesFrom text base n i line last = some places ∧
      ∀ p ∈ places, ∃ q : Place, p = q.shift base ∧ Sound text firstLine q := by
  induction n generalizing i line last with
  | zero => exact ⟨[], rfl, fun p hp => absurd hp List.not_mem_nil⟩
  | succ n ih =>
      obtain ⟨c, hget⟩ : ∃ c, (bytesOf text)[i]? = some c :=
        ⟨_, List.getElem?_eq_getElem (show i < (bytesOf text).length by omega)⟩
      rw [blockLinesFrom]
      dsimp only
      rw [hget, Option.getD_some]
      have hnext := newlines_take_succ hget
      by_cases hnl : c = 0x0A
      · rw [if_pos (by rw [hnl]; rfl)]
        rw [if_pos hnl] at hnext
        refine ih ?_ (by omega)
        rw [hnext, hline, Nat.add_assoc]
      · rw [if_neg (by rwa [beq_iff_eq])]
        rw [if_neg hnl] at hnext
        have hgo : ∀ last, ∃ places, blockLinesFrom text base n (i + 1) line last = some places ∧
            ∀ p ∈ places, ∃ q : Place, p = q.shift base ∧ Sound text firstLine q :=
          fun last => ih (by rw [hnext, hline, Nat.add_zero]) (by omega)
        split
        · exact hgo last
        · rename_i hat
          have hc : c = ascii '@' := by
            rw [Bool.or_eq_true, not_or, bne_iff_ne, ne_eq, not_not] at hat
            exact hat.1
          have hcuts := Utf8.cut_of_ascii hget (by rw [hc]; decide)
          obtain ⟨hskip, -, hword, -⟩ := skipWhile_spec (p := isAlpha) (i := i + 1)
            (n := (bytesOf text).length - (i + 1)) (Nat.add_sub_of_le (by omega))
          have halpha : ∀ b, isAlpha b = true → b < 0x80 := Utf8.forall_byte (by decide +kernel)
          have hend := cut_of_passed hcuts.2 hskip fun k hk hlt => by
            obtain ⟨b, hb, hletter⟩ := hword k hk hlt
            exact ⟨b, hb, halpha b hletter⟩
          obtain ⟨-, word, -, -, hslice, -, -⟩ := Utf8.slice_of_cuts hcuts.2 hend hskip
          dsimp only [bind, Option.bind]
          rw [hslice]
          dsimp only
          split
          · obtain ⟨places, hplaces, hall⟩ := hgo (some line)
            rw [hplaces]
            exact ⟨_, rfl, List.forall_mem_cons.mpr ⟨⟨⟨i, line⟩, rfl, hcuts.1, hline⟩, hall⟩⟩
          · exact hgo last

/-- **Control flow lines of any text.** -/
theorem blockLines_spec (text : Str) (first : Place) :
    ∃ places, blockLines text first = some places ∧
      ∀ p ∈ places, ∃ q : Place, p = q.shift first.i ∧ Sound text first.line q :=
  blockLinesFrom_spec rfl (Nat.zero_add _)

/-! ## From a part of the text to the text -/

variable {part value : Str}

theorem Stands.shift (h : Stands text firstLine part p) (hq : Stands part p.line value q) :
    Stands text firstLine value (q.shift p.i) := by
  obtain ⟨before, after, rfl, hi, hline⟩ := h
  obtain ⟨before', after', rfl, hi', hline'⟩ := hq
  refine ⟨before ++ before', after' ++ after, by simp only [List.append_assoc], ?_, ?_⟩
  · rw [Utf8.encode_append, List.length_append, ← hi, ← hi']
    rfl
  · show q.line = _
    rw [hline', hline, Utf8.encode_append, newlines_append, Nat.add_assoc]

theorem Stands.take (h : Stands text firstLine part p) {j : Nat} (hj : j ≤ (bytesOf part).length) :
    p.line + newlines ((bytesOf part).take j) = firstLine + newlines ((bytesOf text).take (p.i + j)) := by
  obtain ⟨before, after, rfl, hi, hline⟩ := h
  rw [hline, hi, bytesOf, bytesOf, Utf8.encode_append, Utf8.encode_append, List.take_length_add_append,
    newlines_append, List.take_append_of_le_length hj, Nat.add_assoc]

theorem Stands.gap (h : Stands text firstLine part p) (hq : Sound part p.line q) :
    (q.shift p.i).line = firstLine + newlines ((bytesOf text).take (q.shift p.i).i) := by
  show q.line = firstLine + newlines ((bytesOf text).take (p.i + q.i))
  rw [hq.line, h.take hq.le_length]

theorem textEvents_spec (h : Sound text firstLine p) (hcut : Utf8.Cut text i) (hle : p.i ≤ i) :
    ∃ es, textEvents text p i = some es ∧ (∀ e ∈ es, EventSound text firstLine e) ∧ InOrder i p.i es := by
  unfold textEvents
  split
  · exact ⟨[], rfl, fun e he => absurd he List.not_mem_nil, hle⟩
  · obtain ⟨run, hrun, hstands, hlen⟩ := h.slice hcut hle
    obtain ⟨places, hplaces, hblocks⟩ := blockLines_spec run p
    obtain ⟨pieces, hpieces, hall, horder⟩ := interpolations_spec run p
    dsimp only [bind, Option.bind]
    rw [hrun]
    dsimp only
    rw [hplaces]
    dsimp only
    rw [hpieces]
    refine ⟨_, rfl, fun e he => ?_, InOrder.gaps _ _ _ (by rwa [bytesOf, hlen] at horder)⟩
    rcases List.mem_append.mp he with hblock | hpiece
    · obtain ⟨place, hplace, rfl⟩ := List.mem_map.mp hblock
      obtain ⟨q, rfl, hq⟩ := hblocks place hplace
      exact .gap (hstands.gap hq)
    · obtain ⟨piece, hmem, rfl⟩ := List.mem_map.mp hpiece
      cases hall piece hmem with
      | ok hvalue => exact .interp (hstands.shift hvalue)
      | error hq => exact .gap (hstands.gap hq)

end Text

/-! ## The scan -/

/-- What the events of a piece take of its range: those of a run of text stand in it one behind the
other, and a construct of markup is one event at most. -/
def Piece.Fits (piece : Piece) : Prop :=
  if piece.isMarkup then piece.events.length ≤ 1 else InOrder piece.stop piece.start piece.events

/-- The pieces cover the text from one offset to another, one behind the other: none overlaps the next,
nothing stands between them, and each boundary is one between two characters. -/
inductive Covers (text : Str) : Nat → List Piece → Nat → Prop
  | nil {i : Nat} : Covers text i [] i
  | cons {piece : Piece} {rest : List Piece} {stop : Nat} (hcut : Utf8.Cut text piece.stop)
      (hle : piece.start ≤ piece.stop) (hlt : piece.isMarkup = true → piece.start < piece.stop)
      (hfits : piece.Fits) (hrest : Covers text piece.stop rest stop) :
      Covers text piece.start (piece :: rest) stop

/-- Where a scan ends: at the end of the text, or at a quote that never closes. -/
def EndsAt (text : Str) (stopped : Bool) (p : Place) : Prop :=
  if stopped then Unclosed text p else p.i = (bytesOf text).length

section Run

variable {text : Str} {firstLine : Nat} {p : Place}

/-- One turn of the scan: a run of text, and the construct behind it. -/
theorem runTurn_spec (h : Sound text firstLine p) :
    ∃ q es, nextMarkup text (left text p) p = q ∧ textEvents text p q.i = some es ∧ p.i ≤ q.i ∧
      Sound text firstLine q ∧ (∀ e ∈ es, EventSound text firstLine e) ∧
      (⟨false, p.i, q.i, es⟩ : Piece).Fits ∧
      (q.i < (bytesOf text).length → ∃ m, markup text q = some m ∧ MarkupEnds text firstLine q m) := by
  obtain ⟨hq, hle, hstop⟩ := nextMarkup_spec h.line (left_add h)
  obtain ⟨es, hes, hsound, horder⟩ := textEvents_spec h hq.cut hle
  exact ⟨_, es, rfl, hes, hle, hq, hsound, horder, fun hlt => markup_spec hq (hstop hlt).1⟩

/-- The scan from a place on: every turn but the last takes a construct of markup, so it ends. -/
theorem runFrom_spec (turns : Nat) (h : Sound text firstLine p)
    (hturns : (bytesOf text).length < p.i + turns) :
    ∃ s e, runFrom text turns p = some s ∧ Covers text p.i s.pieces e.i ∧ EndsAt text s.stopped e ∧
      ∀ piece ∈ s.pieces, ∀ event ∈ piece.events, EventSound text firstLine event := by
  induction turns generalizing p with
  | zero =>
      have hle := h.le_length
      omega
  | succ turns ih =>
      obtain ⟨q, es, hnext, hes, hle, hq, hsound, hfits, hmarkup⟩ := runTurn_spec h
      have htext : ∀ {rest stop}, Covers text q.i rest stop →
          Covers text p.i (⟨false, p.i, q.i, es⟩ :: rest) stop := fun hrest =>
        @Covers.cons text ⟨false, p.i, q.i, es⟩ _ _ hq.cut hle (fun hno => by cases hno) hfits hrest
      rw [runFrom]
      dsimp only [bind, Option.bind]
      rw [hnext, hes]
      dsimp only
      split
      · rename_i hlt
        obtain ⟨m, hm, hends⟩ := hmarkup hlt
        have hconstruct : ∀ {rest stop}, Covers text m.place.i rest stop →
            Covers text q.i (⟨true, q.i, m.place.i, m.events⟩ :: rest) stop := fun hrest =>
          @Covers.cons text ⟨true, q.i, m.place.i, m.events⟩ _ _ hends.sound.cut
            (Nat.le_of_lt hends.forward) (fun _ => hends.forward) hends.one hrest
        rw [hm]
        dsimp only
        split
        · have hforward := hends.forward
          obtain ⟨s, e, hs, hcovers, hend, hevents⟩ := ih hends.sound (by omega)
          rw [hs]
          refine ⟨_, e, rfl, htext (hconstruct hcovers), hend, ?_⟩
          exact List.forall_mem_cons.mpr ⟨hsound, List.forall_mem_cons.mpr ⟨hends.events, hevents⟩⟩
        · rename_i hstop
          refine ⟨_, m.place, rfl, htext (hconstruct .nil), hends.unclosed (Bool.eq_false_iff.mpr hstop), ?_⟩
          exact List.forall_mem_cons.mpr ⟨hsound, List.forall_mem_singleton.mpr hends.events⟩
      · rename_i hend
        have hlen := hq.le_length
        refine ⟨_, q, rfl, htext .nil, (by omega : q.i = (bytesOf text).length), ?_⟩
        exact List.forall_mem_singleton.mpr hsound

/-- **The scan is safe on any text.** It ends without an access out of range or inside a character, its
pieces cover the text from the start on, up to the end or to a quote that never closes, and so do the
routines for the runs, on any text of theirs. -/
theorem scan_safe (text : Str) (firstLine : Nat) :
    (∃ s e, scan text firstLine = some s ∧ Covers text 0 s.pieces e.i ∧ EndsAt text s.stopped e) ∧
      (∀ first, (interpolations text first).isSome = true) ∧
      ∀ first, (blockLines text first).isSome = true := by
  refine ⟨?_, fun first => ?_, fun first => ?_⟩
  · obtain ⟨s, e, hs, hcovers, hend, -⟩ := runFrom_spec ((bytesOf text).length + 1)
      (sound_start text firstLine) (show _ < 0 + ((bytesOf text).length + 1) by omega)
    exact ⟨s, e, hs, hcovers, hend⟩
  · obtain ⟨pieces, hpieces, -⟩ := interpolations_spec text first
    rw [hpieces]
    rfl
  · obtain ⟨places, hplaces, -⟩ := blockLines_spec text first
    rw [hplaces]
    rfl

end Run

end Devscout.Template
