/-
# Devscout.Lib.Fuel -- calls that may not have finished

A call with a bounded number of nested calls gives nothing when the bound is hit. What it
gives under one bound it gives under every larger one, and that carries over to whatever
is computed from such calls: what follows a call, a list filtered by calls, the first of
some calls that answers.
-/

import Mathlib

namespace Devscout.Lib

namespace Fuel

variable {α β : Type}

/-- What the one gives, if it has finished, the other gives. -/
def Stays (x y : Option α) : Prop := ∀ a, x = some a → y = some a

theorem Stays.refl (x : Option α) : Stays x x := fun _ h => h

theorem stays_none (y : Option α) : Stays none y := fun _ h => nomatch h

theorem Stays.trans {x y z : Option α} (h : Stays x y) (h' : Stays y z) : Stays x z :=
  fun a ha => h' a (h a ha)

theorem Stays.isSome {x y : Option α} (h : Stays x y) (hx : x.isSome) : y.isSome := by
  obtain ⟨a, ha⟩ := Option.isSome_iff_exists.mp hx
  rw [h a ha]
  rfl

theorem Stays.bind {x y : Option α} {f g : α → Option β} (h : Stays x y)
    (hfg : ∀ a, Stays (f a) (g a)) : Stays (x >>= f) (y >>= g) := by
  intro b hb
  obtain ⟨a, ha, hfa⟩ := Option.bind_eq_some_iff.mp hb
  exact Option.bind_eq_some_iff.mpr ⟨a, h a ha, hfg a b hfa⟩

theorem Stays.map {x y : Option α} (f : α → β) (h : Stays x y) : Stays (x.map f) (y.map f) := by
  intro b hb
  obtain ⟨a, ha, hfa⟩ := Option.map_eq_some_iff.mp hb
  exact Option.map_eq_some_iff.mpr ⟨a, h a ha, hfa⟩

/-! ## Lists of calls -/

/-- What every call of a list gives. -/
def mapCalls (f : α → Option β) : List α → Option (List β)
  | [] => some []
  | a :: as => do
      let b ← f a
      let bs ← mapCalls f as
      some (b :: bs)

/-- The entries a call says yes of. -/
def filterCalls (p : α → Option Bool) : List α → Option (List α)
  | [] => some []
  | a :: as => do
      let keep ← p a
      let kept ← filterCalls p as
      some (if keep then a :: kept else kept)

/-- The first answer; no call is made after it. -/
def firstCall (f : α → Option (Option β)) : List α → Option (Option β)
  | [] => some none
  | a :: as => do
      match ← f a with
      | some b => some (some b)
      | none => firstCall f as

/-- Whether every call says yes; no call is made after a no. -/
def allCalls (p : α → Option Bool) : List α → Option Bool
  | [] => some true
  | a :: as => do
      if ← p a then allCalls p as else some false

/-- What every call gives, unless one gives nothing; no call is made after it. -/
def collectCalls (f : α → Option (Option β)) : List α → Option (Option (List β))
  | [] => some (some [])
  | a :: as => do
      match ← f a with
      | none => some none
      | some b => return (← collectCalls f as).map (b :: ·)

theorem mapCalls_stays {f g : α → Option β} (h : ∀ a, Stays (f a) (g a)) (as : List α) :
    Stays (mapCalls f as) (mapCalls g as) := by
  induction as with
  | nil => exact .refl _
  | cons a as ih => exact (h a).bind fun b => ih.bind fun _ => .refl _

example : mapCalls (fun n : Nat => if n = 0 then none else some (n - 1)) [1, 0] = none := by
  decide +kernel

theorem filterCalls_stays {p q : α → Option Bool} (h : ∀ a, Stays (p a) (q a)) (as : List α) :
    Stays (filterCalls p as) (filterCalls q as) := by
  induction as with
  | nil => exact .refl _
  | cons a as ih => exact (h a).bind fun keep => ih.bind fun _ => .refl _

theorem firstCall_stays {f g : α → Option (Option β)} (h : ∀ a, Stays (f a) (g a)) (as : List α) :
    Stays (firstCall f as) (firstCall g as) := by
  induction as with
  | nil => exact .refl _
  | cons a as ih =>
      refine (h a).bind fun answer => ?_
      cases answer with
      | some b => exact .refl _
      | none => exact ih

theorem allCalls_stays {p q : α → Option Bool} (h : ∀ a, Stays (p a) (q a)) (as : List α) :
    Stays (allCalls p as) (allCalls q as) := by
  induction as with
  | nil => exact .refl _
  | cons a as ih =>
      refine (h a).bind fun answer => ?_
      split
      · exact ih
      · exact .refl _

theorem mapCalls_isSome {f : α → Option β} {as : List α} (h : ∀ a ∈ as, (f a).isSome) :
    (mapCalls f as).isSome := by
  induction as with
  | nil => rfl
  | cons a as ih =>
      obtain ⟨b, hb⟩ := Option.isSome_iff_exists.mp (h a List.mem_cons_self)
      obtain ⟨bs, hbs⟩ := Option.isSome_iff_exists.mp (ih fun c hc => h c (List.mem_cons_of_mem a hc))
      rw [mapCalls, hb, hbs]
      rfl

theorem filterCalls_isSome {p : α → Option Bool} {as : List α} (h : ∀ a ∈ as, (p a).isSome) :
    (filterCalls p as).isSome := by
  induction as with
  | nil => rfl
  | cons a as ih =>
      obtain ⟨b, hb⟩ := Option.isSome_iff_exists.mp (h a List.mem_cons_self)
      obtain ⟨bs, hbs⟩ := Option.isSome_iff_exists.mp (ih fun c hc => h c (List.mem_cons_of_mem a hc))
      rw [filterCalls, hb, hbs]
      rfl

theorem firstCall_isSome {f : α → Option (Option β)} {as : List α} (h : ∀ a ∈ as, (f a).isSome) :
    (firstCall f as).isSome := by
  induction as with
  | nil => rfl
  | cons a as ih =>
      obtain ⟨answer, hanswer⟩ := Option.isSome_iff_exists.mp (h a List.mem_cons_self)
      rw [firstCall, hanswer]
      cases answer with
      | some b => rfl
      | none => exact ih fun c hc => h c (List.mem_cons_of_mem a hc)

/-- Calls that all say yes have all been made. -/
theorem allCalls_eq_true {p : α → Option Bool} {as : List α} :
    allCalls p as = some true ↔ ∀ a ∈ as, p a = some true := by
  induction as with
  | nil => simp [allCalls]
  | cons a as ih =>
      rw [allCalls, List.forall_mem_cons, ← ih]
      cases p a with
      | none => simp
      | some answer => cases answer <;> simp

theorem exists_of_allCalls_eq_false {p : α → Option Bool} {as : List α}
    (h : allCalls p as = some false) : ∃ a ∈ as, p a = some false := by
  induction as with
  | nil => cases h
  | cons a as ih =>
      rw [allCalls] at h
      obtain ⟨answer, ha, hrest⟩ := Option.bind_eq_some_iff.mp h
      cases answer with
      | false => exact ⟨a, List.mem_cons_self, ha⟩
      | true =>
          obtain ⟨b, hb, hfalse⟩ := ih hrest
          exact ⟨b, List.mem_cons_of_mem a hb, hfalse⟩

/-- A call is made when the calls before it say yes, if they answer. -/
theorem allCalls_reaches {p : α → Option Bool} {before after : List α} {a : α}
    (hbefore : ∀ b ∈ before, ∀ answer, p b = some answer → answer = true)
    (h : (allCalls p (before ++ a :: after)).isSome) : (p a).isSome := by
  induction before with
  | nil =>
      cases ha : p a with
      | some answer => rfl
      | none => rw [List.nil_append, allCalls, ha] at h; cases h
  | cons b before ih =>
      rw [List.cons_append, allCalls] at h
      cases hb : p b with
      | none => rw [hb] at h; cases h
      | some answer =>
          rw [hb, hbefore b List.mem_cons_self answer hb] at h
          exact ih (fun c hc => hbefore c (List.mem_cons_of_mem b hc)) h

/-- Whether something was collected is whether every call gave something. -/
theorem collectCalls_isSome {f : α → Option (Option β)} (as : List α) :
    (collectCalls f as).map Option.isSome = allCalls (fun a => (f a).map Option.isSome) as := by
  induction as with
  | nil => rfl
  | cons a as ih =>
      rw [collectCalls, allCalls, ← ih]
      cases f a with
      | none => rfl
      | some answer =>
          cases answer with
          | none => rfl
          | some b =>
              cases collectCalls f as with
              | none => rfl
              | some answers => cases answers <;> rfl

end Fuel

end Devscout.Lib
