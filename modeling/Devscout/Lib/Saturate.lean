/-
# Devscout.Lib.Saturate -- rounds until nothing new is found

A saturating loop runs rounds over a growing state and stops after the first round that
says it added nothing. Each round that adds something uses up some measure of what is
left to add, so more fuel than that always suffices, and the loop then ends right after
a round that changed nothing.
-/

import Mathlib

namespace Devscout.Lib

variable {σ α : Type}

/-- Rounds until one adds nothing; a round says so beside its state. -/
def saturate (round : σ → σ × Bool) : Nat → σ → σ
  | 0, s => s
  | fuel + 1, s =>
      if (round s).2 then saturate round fuel (round s).1 else (round s).1

/-- What every round keeps, the loop keeps. -/
theorem saturate_induct {round : σ → σ × Bool} {P : σ → Prop} (hround : ∀ s, P s → P (round s).1)
    {fuel : Nat} {s : σ} (h : P s) : P (saturate round fuel s) := by
  induction fuel generalizing s with
  | zero => exact h
  | succ fuel ih =>
      unfold saturate
      split
      · exact ih (hround s h)
      · exact hround s h

/-- The loop itself, without fuel: it runs from `s` and stops at `t`. -/
inductive LoopsTo (round : σ → σ × Bool) : σ → σ → Prop
  | stop {s : σ} : (round s).2 = false → LoopsTo round s (round s).1
  | again {s t : σ} : (round s).2 = true → LoopsTo round (round s).1 t → LoopsTo round s t

/-- It stops with a round that added nothing. -/
theorem LoopsTo.exit {round : σ → σ × Bool} {s t : σ} (h : LoopsTo round s t) :
    ∃ last, (round last).2 = false ∧ t = (round last).1 := by
  induction h with
  | stop hquiet => exact ⟨_, hquiet, rfl⟩
  | again _ _ ih => exact ih

/-- **Termination.** Given a measure that each adding round lowers the loop stops, and fuel above
the measure is fuel enough. -/
theorem loopsTo_saturate {round : σ → σ × Bool} {m : σ → Nat}
    (hround : ∀ s, (round s).2 = true → m (round s).1 < m s) {fuel : Nat} {s : σ}
    (hfuel : m s < fuel) : LoopsTo round s (saturate round fuel s) := by
  induction fuel generalizing s with
  | zero => omega
  | succ fuel ih =>
      unfold saturate
      split
      · rename_i hadded
        have hlower := hround s hadded
        exact .again hadded (ih (by omega))
      · rename_i hquiet
        exact .stop (by simpa using hquiet)

/-! ## Rounds over a list -/

section Visits

variable (visit : α → σ → Option σ)

/-- One visit: it may change the state, and then says so. -/
def visitOne (acc : σ × Bool) (a : α) : σ × Bool :=
  match visit a acc.1 with
  | some t => (t, true)
  | none => acc

/-- A round: a visit of every item. -/
def visitAll (items : List α) (s : σ) : σ × Bool := items.foldl (visitOne visit) (s, false)

variable {visit}

theorem foldl_visitOne_induct {P : σ → Prop} {items : List α}
    (hvisit : ∀ a ∈ items, ∀ s t, visit a s = some t → P s → P t) {acc : σ × Bool} (h : P acc.1) :
    P (items.foldl (visitOne visit) acc).1 := by
  induction items generalizing acc with
  | nil => exact h
  | cons a items ih =>
      rw [List.foldl_cons]
      apply ih fun b hb => hvisit b (List.mem_cons_of_mem a hb)
      unfold visitOne
      split
      · rename_i t hsome
        exact hvisit a List.mem_cons_self acc.1 t hsome h
      · exact h

/-- What every visit keeps, the round keeps. -/
theorem visitAll_induct {P : σ → Prop} {items : List α}
    (hvisit : ∀ a ∈ items, ∀ s t, visit a s = some t → P s → P t) {s : σ} (h : P s) :
    P (visitAll visit items s).1 :=
  foldl_visitOne_induct hvisit h

theorem foldl_visitOne_quiet {items : List α} {acc : σ × Bool}
    (h : (items.foldl (visitOne visit) acc).2 = false) :
    items.foldl (visitOne visit) acc = acc ∧ ∀ a ∈ items, visit a acc.1 = none := by
  induction items generalizing acc with
  | nil => exact ⟨rfl, fun a ha => by cases ha⟩
  | cons a items ih =>
      rw [List.foldl_cons] at h ⊢
      obtain ⟨hsame, hrest⟩ := ih h
      cases hvisit : visit a acc.1 with
      | some t =>
          -- the round would say so
          rw [hsame] at h
          simp [visitOne, hvisit] at h
      | none =>
          have hacc : visitOne visit acc a = acc := by simp [visitOne, hvisit]
          rw [hacc] at hsame hrest ⊢
          refine ⟨hsame, fun b hb => ?_⟩
          rcases List.mem_cons.mp hb with rfl | hb
          · exact hvisit
          · exact hrest b hb

/-- A round that says it added nothing found nothing to do at any item. -/
theorem visitAll_quiet {items : List α} {s : σ} (h : (visitAll visit items s).2 = false) :
    (visitAll visit items s).1 = s ∧ ∀ a ∈ items, visit a s = none := by
  obtain ⟨hsame, hnone⟩ := foldl_visitOne_quiet h
  exact ⟨congrArg Prod.fst hsame, hnone⟩

theorem foldl_visitOne_lower {m : σ → Nat} {items : List α}
    (hvisit : ∀ a ∈ items, ∀ s t, visit a s = some t → m t < m s) (acc : σ × Bool) :
    m (items.foldl (visitOne visit) acc).1 ≤ m acc.1 ∧
      (acc.2 = false → (items.foldl (visitOne visit) acc).2 = true →
        m (items.foldl (visitOne visit) acc).1 < m acc.1) := by
  induction items generalizing acc with
  | nil =>
      refine ⟨Nat.le_refl _, fun hquiet hadded => ?_⟩
      rw [List.foldl_nil, hquiet] at hadded
      cases hadded
  | cons a items ih =>
      have ih := fun acc => ih (fun b hb => hvisit b (List.mem_cons_of_mem a hb)) acc
      rw [List.foldl_cons]
      cases hstep : visit a acc.1 with
      | some t =>
          have hacc : visitOne visit acc a = (t, true) := by simp [visitOne, hstep]
          have hlower := hvisit a List.mem_cons_self acc.1 t hstep
          have hrest : m (items.foldl (visitOne visit) (t, true)).1 ≤ m t := (ih (t, true)).1
          rw [hacc]
          exact ⟨by omega, fun _ _ => by omega⟩
      | none =>
          have hacc : visitOne visit acc a = acc := by simp [visitOne, hstep]
          rw [hacc]
          exact ih acc

/-- Visits that each lower a measure make a round that lowers it. -/
theorem visitAll_lower {m : σ → Nat} {items : List α}
    (hvisit : ∀ a ∈ items, ∀ s t, visit a s = some t → m t < m s) {s : σ}
    (hadded : (visitAll visit items s).2 = true) : m (visitAll visit items s).1 < m s :=
  (foldl_visitOne_lower hvisit (s, false)).2 rfl hadded

/-- **Saturation.** From a start that the measure bounds, the loop ends at a state where
no visit finds anything to do, and whatever every visit keeps has been kept. -/
theorem saturate_visits {m : σ → Nat} {items : List α} {P : σ → Prop}
    (hlower : ∀ a ∈ items, ∀ s t, visit a s = some t → m t < m s)
    (hkeep : ∀ a ∈ items, ∀ s t, visit a s = some t → P s → P t) {fuel : Nat} {s : σ}
    (hfuel : m s < fuel) (h : P s) :
    P (saturate (visitAll visit items) fuel s) ∧
      ∀ a ∈ items, visit a (saturate (visitAll visit items) fuel s) = none := by
  refine ⟨saturate_induct (fun _ hs => visitAll_induct hkeep hs) h, ?_⟩
  obtain ⟨last, hquiet, hlast⟩ := (loopsTo_saturate (fun _ => visitAll_lower hlower) hfuel).exit
  obtain ⟨hsame, hnone⟩ := visitAll_quiet hquiet
  rw [hlast, hsame]
  exact hnone

end Visits

/-- Counting less in one place and nowhere more. -/
theorem countP_lt_countP {p q : α → Bool} {items : List α} (hle : ∀ a ∈ items, p a = true → q a = true)
    {a : α} (ha : a ∈ items) (hq : q a = true) (hp : p a = false) :
    items.countP p < items.countP q := by
  -- both counts are taken among the items that satisfy the wider property
  have hwithin : items.countP p = (items.filter q).countP p := by
    rw [List.countP_filter]
    refine List.countP_congr fun b hb => ?_
    rw [Bool.and_eq_true]
    exact ⟨fun h => ⟨h, hle b hb h⟩, And.left⟩
  have hless : (items.filter q).countP p < (items.filter q).length :=
    List.countP_lt_length_iff.mpr ⟨a, List.mem_filter.mpr ⟨ha, hq⟩, hp⟩
  have hcount : items.countP q = (items.filter q).length := List.countP_eq_length_filter
  omega

section Missing

variable [DecidableEq α]

/-- How many entries of a list are not in another. -/
def missing (nodes held : List α) : Nat := nodes.countP fun c => c ∉ held

theorem missing_mono {nodes held held' : List α} (h : ∀ c ∈ held, c ∈ held') :
    missing nodes held' ≤ missing nodes held :=
  List.countP_mono_left fun c _ hc => by
    have hnot : c ∉ held' := of_decide_eq_true hc
    exact decide_eq_true fun hmem => hnot (h c hmem)

theorem missing_lt {nodes held held' : List α} (h : ∀ c ∈ held, c ∈ held') {c : α} (hc : c ∈ nodes)
    (hnot : c ∉ held) (hmem : c ∈ held') : missing nodes held' < missing nodes held := by
  refine countP_lt_countP (fun d _ hd => ?_) hc (decide_eq_true hnot) (by simpa using hmem)
  have hnot' : d ∉ held' := of_decide_eq_true hd
  exact decide_eq_true fun hd' => hnot' (h d hd')

end Missing

/-! ## Accumulating folds -/

/-- A property that each step can only add to, as long as what all steps keep is kept, holds at
the end when it held at the start or some step brought it. -/
theorem foldl_gain_of (keeps holds : σ → Prop) (brings : α → Prop) {f : σ → α → σ} {items : List α}
    (hstep : ∀ a ∈ items, ∀ s, keeps s → keeps (f s a) ∧ (holds (f s a) ↔ holds s ∨ brings a)) {s : σ}
    (hs : keeps s) :
    keeps (items.foldl f s) ∧ (holds (items.foldl f s) ↔ holds s ∨ ∃ a ∈ items, brings a) := by
  induction items generalizing s with
  | nil => exact ⟨hs, by simp⟩
  | cons a items ih =>
      obtain ⟨hkept, hholds⟩ := hstep a List.mem_cons_self s hs
      obtain ⟨hkeeps, hiff⟩ := ih (fun b hb => hstep b (List.mem_cons_of_mem a hb)) hkept
      refine ⟨hkeeps, ?_⟩
      rw [List.foldl_cons, hiff, hholds, or_assoc]
      simp only [List.mem_cons, exists_eq_or_imp]

/-- The same where nothing needs to be kept. -/
theorem foldl_gain_iff (holds : σ → Prop) (brings : α → Prop) {f : σ → α → σ} {items : List α}
    (hstep : ∀ a ∈ items, ∀ s, holds (f s a) ↔ holds s ∨ brings a) (s : σ) :
    holds (items.foldl f s) ↔ holds s ∨ ∃ a ∈ items, brings a :=
  (foldl_gain_of (fun _ => True) holds brings (fun a ha s _ => ⟨trivial, hstep a ha s⟩) trivial).2

end Devscout.Lib
