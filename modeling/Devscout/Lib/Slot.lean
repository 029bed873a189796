/-
# Devscout.Lib.Slot -- slots replaced by atomic rename

A slot holds one file or none, and a rename replaces the file whole, installing
an identity. When the n-th rename of a directory installs the n-th of a sequence
of different identities, a slot found twice with one identity held the same file
all the while in between: the identities alone rule out a change and a change
back.
-/

import Mathlib

namespace Devscout.Lib

variable {I α : Type}

/-- A file with the identity its rename installed. -/
structure Stamped (I α : Type) where
  ident : I
  content : α

/-- What renames numbered from `n` on can do to a slot. -/
def Replaced (ident : Nat → I) (n : Nat) (before after : Option (Stamped I α)) : Prop :=
  after = before ∨ ∃ k a, n ≤ k ∧ after = some ⟨ident k, a⟩

/-- The slot's file came with one of the first `n` renames. -/
def Dated (ident : Nat → I) (n : Nat) (slot : Option (Stamped I α)) : Prop :=
  ∀ file, slot = some file → ∃ k, k < n ∧ file.ident = ident k

variable {ident : Nat → I} {m n : Nat} {a b c : Option (Stamped I α)}

theorem Replaced.refl (ident : Nat → I) (n : Nat) (a : Option (Stamped I α)) :
    Replaced ident n a a := Or.inl rfl

theorem Replaced.rename (ident : Nat → I) {k : Nat} (h : n ≤ k) (a : Option (Stamped I α)) (x : α) :
    Replaced ident n a (some ⟨ident k, x⟩) := Or.inr ⟨k, x, h, rfl⟩

theorem Replaced.trans (hmn : m ≤ n) (hab : Replaced ident m a b) (hbc : Replaced ident n b c) :
    Replaced ident m a c := by
  rcases hbc with rfl | ⟨k, x, hk, rfl⟩
  · exact hab
  · exact Replaced.rename ident (Nat.le_trans hmn hk) a x

theorem Dated.mono (hmn : m ≤ n) (h : Dated ident m a) : Dated ident n a := by
  intro file hfile
  obtain ⟨k, hk, hident⟩ := h file hfile
  exact ⟨k, Nat.lt_of_lt_of_le hk hmn, hident⟩

theorem Dated.none (ident : Nat → I) (n : Nat) : Dated ident n (none : Option (Stamped I α)) := nofun

theorem Dated.rename (ident : Nat → I) (n : Nat) (x : α) : Dated ident (n + 1) (some ⟨ident n, x⟩) := by
  rintro file ⟨⟩
  exact ⟨n, Nat.lt_succ_self n, rfl⟩

/-- A later file never has an earlier file's identity. -/
theorem Replaced.eq_of_ident (hident : Function.Injective ident) (hdated : Dated ident n a)
    (hab : Replaced ident n a b) (hsame : b.map Stamped.ident = a.map Stamped.ident) : b = a := by
  rcases hab with hab | ⟨k, x, hk, rfl⟩
  · exact hab
  · cases a with
    | none => simp at hsame
    | some file =>
        obtain ⟨j, hj, hfile⟩ := hdated file rfl
        have hkj : ident k = ident j := by simpa [hfile] using hsame
        have := hident hkj
        omega

/-- **No change and change back.** A slot with one identity at both ends of a
stretch of renames holds the same file at both ends and at every point between. -/
theorem Replaced.between (hident : Function.Injective ident) (hdated : Dated ident m a)
    (hmn : m ≤ n) (hab : Replaced ident m a b) (hbc : Replaced ident n b c)
    (hsame : c.map Stamped.ident = a.map Stamped.ident) : b = a ∧ c = a := by
  have hca : c = a := (hab.trans hmn hbc).eq_of_ident hident hdated hsame
  refine ⟨?_, hca⟩
  rcases hbc with rfl | ⟨k, x, hk, rfl⟩
  · exact hca
  · obtain ⟨j, hj, hfile⟩ := hdated _ hca.symm
    have := hident hfile
    omega

end Devscout.Lib
