/-
# Devscout.Lib.JsonText -- the compact text of JSON values

A string is written between quotes, with a quote, a backslash and the control characters
escaped and every other character as it stands; a number is its decimal digits. Both can
be read off the front of any text they begin: where the string ends, and where the digits
do, is written in them.
-/

import Devscout.Lib.Text
import Std.Data.String.ToNat

namespace Devscout.Lib

namespace JsonText

def hexDigit (n : Nat) : Char := if n < 10 then Char.ofNat (48 + n) else Char.ofNat (87 + n)

/-- What follows the backslash of an escaped control character. -/
def controlEscape (n : Nat) : Str :=
  if n = 8 then ['b']
  else if n = 9 then ['t']
  else if n = 10 then ['n']
  else if n = 12 then ['f']
  else if n = 13 then ['r']
  else ['u', '0', '0', hexDigit (n / 16), hexDigit (n % 16)]

def escapeChar (c : Char) : Str :=
  if c = '"' ∨ c = '\\' then ['\\', c]
  else if c.toNat < 32 then '\\' :: controlEscape c.toNat
  else [c]

/-- A string value. -/
def quote (s : Str) : Str := '"' :: (s.flatMap escapeChar ++ ['"'])

/-- A number value. -/
def decimal (n : Nat) : Str := (toString n).toList

/-! ## Reading a string off the front -/

theorem controlEscape_head {m n : Nat} (hm : m < 32) (hn : n < 32)
    (h : (controlEscape m).head? = (controlEscape n).head?) :
    (controlEscape m).length = (controlEscape n).length := by
  have hlength : ∀ m < 32, (controlEscape m).length =
      if (controlEscape m).head? = some 'u' then 5 else 1 := by decide
  rw [hlength m hm, hlength n hn, h]

/-- The code that an escape spells: a letter has its own, two digits are read. -/
def controlCode : Str → Nat
  | [c] => if c = 'b' then 8 else if c = 't' then 9 else if c = 'n' then 10 else if c = 'f' then 12 else 13
  | [_, _, _, high, low] => 16 * digit high + digit low
  | _ => 0
where
  digit (c : Char) : Nat := if c.toNat < 58 then c.toNat - 48 else c.toNat - 87

theorem controlEscape_inj {m n : Nat} (hm : m < 32) (hn : n < 32)
    (h : controlEscape m = controlEscape n) : m = n := by
  have hcode : ∀ m < 32, controlCode (controlEscape m) = m := by decide
  rw [← hcode m hm, h, hcode n hn]

theorem controlEscape_ne {n : Nat} (hn : n < 32) (rest : Str) {c : Char} (hc : c = '"' ∨ c = '\\')
    (more : Str) : controlEscape n ++ rest ≠ c :: more := by
  have hall : ∀ n < 32, (controlEscape n).head? ≠ some '"' ∧ (controlEscape n).head? ≠ some '\\' ∧
      controlEscape n ≠ [] := by decide
  intro h
  obtain ⟨hquote, hslash, hne⟩ := hall n hn
  have hhead : (controlEscape n).head? = some c := by
    have hfront : (controlEscape n ++ rest).head? = (controlEscape n).head? :=
      List.head?_append_of_ne_nil _ hne
    rw [← hfront, h, List.head?_cons]
  rcases hc with rfl | rfl
  · exact hquote hhead
  · exact hslash hhead

theorem char_eq_of_toNat {c d : Char} (h : c.toNat = d.toNat) : c = d := by
  rw [← Char.ofNat_toNat c, h, Char.ofNat_toNat]

/-- The escape of a character ends where it ends, whatever follows. -/
theorem escapeChar_append_inj {c d : Char} {x y : Str}
    (h : escapeChar c ++ x = escapeChar d ++ y) : c = d ∧ x = y := by
  unfold escapeChar at h
  by_cases hc : c = '"' ∨ c = '\\' <;> by_cases hd : d = '"' ∨ d = '\\'
  · rw [if_pos hc, if_pos hd] at h
    simpa using h
  · rw [if_pos hc, if_neg hd] at h
    by_cases hlow : d.toNat < 32
    · rw [if_pos hlow] at h
      exact absurd (List.cons.inj h).2.symm (controlEscape_ne hlow y hc _)
    · rw [if_neg hlow] at h
      exact absurd (Or.inr (List.cons.inj h).1.symm) hd
  · rw [if_neg hc, if_pos hd] at h
    by_cases hlow : c.toNat < 32
    · rw [if_pos hlow] at h
      exact absurd (List.cons.inj h).2 (controlEscape_ne hlow x hd _)
    · rw [if_neg hlow] at h
      exact absurd (Or.inr (List.cons.inj h).1) hc
  · rw [if_neg hc, if_neg hd] at h
    by_cases hlowc : c.toNat < 32 <;> by_cases hlowd : d.toNat < 32
    · rw [if_pos hlowc, if_pos hlowd] at h
      have htail : controlEscape c.toNat ++ x = controlEscape d.toNat ++ y := (List.cons.inj h).2
      have hne : ∀ n < 32, controlEscape n ≠ [] := by decide
      have hhead : (controlEscape c.toNat).head? = (controlEscape d.toNat).head? := by
        have hfront : (controlEscape c.toNat ++ x).head? = (controlEscape c.toNat).head? :=
          List.head?_append_of_ne_nil _ (hne _ hlowc)
        rw [← hfront, htail, List.head?_append_of_ne_nil _ (hne _ hlowd)]
      obtain ⟨hescape, hrest⟩ := List.append_inj htail (controlEscape_head hlowc hlowd hhead)
      exact ⟨char_eq_of_toNat (controlEscape_inj hlowc hlowd hescape), hrest⟩
    · rw [if_pos hlowc, if_neg hlowd] at h
      exact absurd (Or.inr (List.cons.inj h).1.symm) hd
    · rw [if_neg hlowc, if_pos hlowd] at h
      exact absurd (Or.inr (List.cons.inj h).1) hc
    · rw [if_neg hlowc, if_neg hlowd] at h
      simpa using h

/-- No escape begins with the closing quote. -/
theorem escapeChar_append_ne (c : Char) (x y : Str) : escapeChar c ++ x ≠ '"' :: y := by
  intro h
  unfold escapeChar at h
  split at h
  · exact absurd (List.cons.inj h).1 (by decide)
  · rename_i hc
    split at h
    · exact absurd (List.cons.inj h).1 (by decide)
    · exact hc (Or.inl (List.cons.inj h).1)

/-- **A quoted string is read off the front of any text.** -/
theorem quote_append_inj {s t x y : Str} (h : quote s ++ x = quote t ++ y) : s = t ∧ x = y := by
  have hbody : ∀ s t : Str, s.flatMap escapeChar ++ '"' :: x = t.flatMap escapeChar ++ '"' :: y →
      s = t ∧ x = y := by
    intro s
    induction s with
    | nil =>
        intro t ht
        cases t with
        | nil => exact ⟨rfl, (List.cons.inj ht).2⟩
        | cons d t =>
            rw [List.flatMap_nil, List.nil_append, List.flatMap_cons, List.append_assoc] at ht
            exact absurd ht.symm (escapeChar_append_ne d _ _)
    | cons c s ih =>
        intro t ht
        cases t with
        | nil =>
            rw [List.flatMap_nil, List.nil_append, List.flatMap_cons, List.append_assoc] at ht
            exact absurd ht (escapeChar_append_ne c _ _)
        | cons d t =>
            rw [List.flatMap_cons, List.flatMap_cons, List.append_assoc, List.append_assoc] at ht
            obtain ⟨rfl, hrest⟩ := escapeChar_append_inj ht
            obtain ⟨rfl, hxy⟩ := ih t hrest
            exact ⟨rfl, hxy⟩
  refine hbody s t ?_
  simpa [quote] using h

/-! ## Reading a number off the front -/

theorem decimal_inj {m n : Nat} (h : decimal m = decimal n) : m = n :=
  Nat.repr_injective (String.toList_inj.mp h)

theorem isDigit_of_mem_decimal {n : Nat} {c : Char} (h : c ∈ decimal n) : c.isDigit := by
  have hdigits : decimal n = Nat.toDigits 10 n := by simp [decimal, toString, Nat.repr]
  rw [hdigits] at h
  exact Nat.isDigit_of_mem_toDigits (by decide) (by decide) h

theorem decimal_ne_nil (n : Nat) : decimal n ≠ [] := by
  have hdigits : decimal n = Nat.toDigits 10 n := by simp [decimal, toString, Nat.repr]
  rw [hdigits]
  exact Nat.toDigits_ne_nil

/-- A number ends where a character stands that is no digit. -/
theorem takeWhile_decimal (n : Nat) {c : Char} (hc : c.isDigit = false) (x : Str) :
    (decimal n ++ c :: x).takeWhile Char.isDigit = decimal n := by
  rw [List.takeWhile_append_of_pos fun d hd => isDigit_of_mem_decimal hd,
    List.takeWhile_cons_of_neg (by simp [hc]), List.append_nil]

/-- **A number is read off the front of any text that goes on with no digit.** -/
theorem decimal_append_inj {m n : Nat} {c d : Char} (hc : c.isDigit = false)
    (hd : d.isDigit = false) {x y : Str} (h : decimal m ++ c :: x = decimal n ++ d :: y) :
    m = n ∧ c :: x = d :: y := by
  have hdigits : decimal m = decimal n := by
    rw [← takeWhile_decimal m hc x, h, takeWhile_decimal n hd y]
  rw [hdigits] at h
  exact ⟨decimal_inj hdigits, List.append_cancel_left h⟩

end JsonText

end Devscout.Lib
