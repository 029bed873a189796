/-
# Devscout.Lib.Utf8 -- offsets into encoded text

A program that walks over text by bytes cuts it by offsets, and a cut inside a character
ends the process. The offsets between two characters are the lengths of the encodings of
the beginnings of the text. Both sides of a byte below `0x80` are such offsets, for that
byte is a character of its own, so a program that only stops at such bytes cuts nothing.
-/

import Devscout.Lib.Text

namespace Devscout.Lib.Utf8

/-- The bytes of a text. -/
def encode (text : Str) : Bytes := text.flatMap String.utf8EncodeChar

theorem encode_cons (c : Char) (text : Str) : encode (c :: text) = String.utf8EncodeChar c ++ encode text :=
  List.flatMap_cons

theorem encode_append (a b : Str) : encode (a ++ b) = encode a ++ encode b := List.flatMap_append

theorem length_encode (text : Str) : (encode text).length = Text.utf8Len text := by
  induction text with
  | nil => rfl
  | cons c text ih => rw [encode_cons, List.length_append, ih, String.length_utf8EncodeChar, Text.utf8Len_cons]

theorem eq_nil_of_encode {text : Str} (h : (encode text).length = 0) : text = [] := by
  cases text with
  | nil => rfl
  | cons c text =>
      rw [length_encode, Text.utf8Len_cons] at h
      have hpos := Char.utf8Size_pos c
      omega

/-- A fact about bytes can be checked byte by byte. -/
theorem forall_byte {P : UInt8 → Prop} (h : ∀ n : Fin 256, P (UInt8.ofNat n.val)) (b : UInt8) : P b := by
  have hb := h ⟨b.toNat, b.toNat_lt⟩
  rwa [UInt8.ofNat_toNat] at hb

/-! ## One character -/

theorem le_ofNat {n : Nat} (h : 0x80 ≤ n) (h' : n < 0x100) : (0x80 : UInt8) ≤ UInt8.ofNat n := by
  rw [UInt8.le_iff_toNat_le]
  simp only [UInt8.toNat_ofNat', UInt8.reduceToNat]
  omega

/-- A character is one byte below `0x80`, or has only bytes from there on. -/
theorem utf8EncodeChar_cases (c : Char) :
    (∃ b, String.utf8EncodeChar c = [b] ∧ b < 0x80) ∨ ∀ b ∈ String.utf8EncodeChar c, 0x80 ≤ b := by
  unfold String.utf8EncodeChar
  dsimp only
  split
  · rename_i h
    refine Or.inl ⟨_, rfl, ?_⟩
    rw [UInt8.lt_iff_toNat_lt]
    simp only [UInt8.toNat_ofNat', UInt8.reduceToNat]
    omega
  · refine Or.inr fun b hb => ?_
    split at hb
    · simp only [List.mem_cons, List.not_mem_nil, or_false] at hb
      rcases hb with rfl | rfl
      · exact le_ofNat (by omega) (by omega)
      · exact le_ofNat (by omega) (by omega)
    · split at hb
      · simp only [List.mem_cons, List.not_mem_nil, or_false] at hb
        rcases hb with rfl | rfl | rfl
        · exact le_ofNat (by omega) (by omega)
        · exact le_ofNat (by omega) (by omega)
        · exact le_ofNat (by omega) (by omega)
      · simp only [List.mem_cons, List.not_mem_nil, or_false] at hb
        rcases hb with rfl | rfl | rfl | rfl
        · exact le_ofNat (by omega) (by omega)
        · exact le_ofNat (by omega) (by omega)
        · exact le_ofNat (by omega) (by omega)
        · exact le_ofNat (by omega) (by omega)

/-! ## Cuts -/

/-- An offset between two characters. -/
def Cut (text : Str) (i : Nat) : Prop := ∃ before after, text = before ++ after ∧ i = (encode before).length

theorem cut_zero (text : Str) : Cut text 0 := ⟨[], text, rfl, rfl⟩

theorem cut_length (text : Str) : Cut text (encode text).length := ⟨text, [], (List.append_nil text).symm, rfl⟩

theorem Cut.le_length {text : Str} {i : Nat} (h : Cut text i) : i ≤ (encode text).length := by
  obtain ⟨before, after, rfl, rfl⟩ := h
  rw [encode_append, List.length_append]
  omega

/-- **A byte below `0x80` is a character of its own.** -/
theorem cut_of_ascii {text : Str} {i : Nat} {b : UInt8} (h : (encode text)[i]? = some b) (hb : b < 0x80) :
    Cut text i ∧ Cut text (i + 1) := by
  induction text generalizing i with
  | nil => cases h
  | cons c text ih =>
      rw [encode_cons] at h
      -- past the first character, the offsets are those of the rest
      have hmove : ∀ j, Cut text j → Cut (c :: text) ((String.utf8EncodeChar c).length + j) := by
        rintro j ⟨before, after, rfl, rfl⟩
        exact ⟨c :: before, after, rfl, by rw [encode_cons, List.length_append]⟩
      by_cases hle : (String.utf8EncodeChar c).length ≤ i
      · rw [List.getElem?_append_right hle] at h
        have h1 := hmove _ (ih h).1
        have h2 := hmove _ (ih h).2
        rw [Nat.add_sub_cancel' hle] at h1
        rw [← Nat.add_assoc, Nat.add_sub_cancel' hle] at h2
        exact ⟨h1, h2⟩
      · rw [List.getElem?_append_left (Nat.lt_of_not_le hle)] at h
        rcases utf8EncodeChar_cases c with ⟨b', hc, -⟩ | hhigh
        · rw [hc, List.length_singleton, Nat.not_le, Nat.lt_one_iff] at hle
          subst hle
          refine ⟨cut_zero _, [c], text, rfl, ?_⟩
          rw [encode_cons, hc]
          rfl
        · exact absurd hb (UInt8.not_lt.mpr (hhigh b (List.mem_of_getElem? h)))

/-- **Between two cuts stands text.** -/
theorem slice_of_cuts {text : Str} {i j : Nat} (hi : Cut text i) (hj : Cut text j) (hle : i ≤ j) :
    ∃ before middle after, text = before ++ (middle ++ after) ∧ Text.slice i j text = some middle ∧
      (encode before).length = i ∧ (encode middle).length = j - i := by
  obtain ⟨before, after, rfl, rfl⟩ := hi
  obtain ⟨before', after', heq, rfl⟩ := hj
  -- the second cut lies in what stands behind the first one
  obtain ⟨middle, rfl, rfl⟩ : ∃ middle, before' = before ++ middle ∧ after = middle ++ after' := by
    rcases List.append_eq_append_iff.mp heq with ⟨middle, h, h'⟩ | ⟨middle, rfl, rfl⟩
    · exact ⟨middle, h, h'⟩
    · rw [encode_append, List.length_append] at hle
      have hnil := @eq_nil_of_encode middle (by omega)
      subst hnil
      exact ⟨[], by simp, rfl⟩
  refine ⟨before, middle, after', rfl, ?_, rfl, ?_⟩
  · rw [Text.slice, length_encode, length_encode, ← List.append_assoc, Text.sliceTo_append, Option.bind_some,
      Text.sliceFrom_append]
  · rw [encode_append, List.length_append]
    omega

end Devscout.Lib.Utf8
