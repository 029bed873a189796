/-
# Devscout.Lib.Layers -- searching a graph layer by layer

A search that starts somewhere and takes a step at a time reaches things by chains of
steps. The layer of a thing is the length of its shortest chain. A search that keeps a
frontier and a set of what it has seen, and whose next frontier is what one step leads to
and was not seen before, has the layers for its frontiers, whatever the order in which it
goes through them.
-/

import Mathlib

namespace Devscout.Lib

variable {D : Type} {start start' : D → Prop} {step step' : D → D → Prop} {d : D} {n m : Nat}

/-- `n` steps lead from a start to `d`. -/
inductive Chain (start : D → Prop) (step : D → D → Prop) : Nat → D → Prop
  | here {d : D} (h : start d) : Chain start step 0 d
  | next {n : Nat} {d e : D} (h : Chain start step n d) (hstep : step d e) : Chain start step (n + 1) e

/-- The shortest chain to `d` has `n` steps. -/
def Layer (start : D → Prop) (step : D → D → Prop) (n : Nat) (d : D) : Prop :=
  Chain start step n d ∧ ∀ m < n, ¬ Chain start step m d

theorem Chain.mono (hstart : ∀ d, start d → start' d) (hstep : ∀ d e, step d e → step' d e)
    (h : Chain start step n d) : Chain start' step' n d := by
  induction h with
  | here h => exact .here (hstart _ h)
  | next _ h ih => exact .next ih (hstep _ _ h)

theorem chain_zero : Chain start step 0 d ↔ start d := by
  constructor
  · intro h
    cases h with
    | here h => exact h
  · exact .here

theorem chain_succ : Chain start step (n + 1) d ↔ ∃ e, Chain start step n e ∧ step e d := by
  constructor
  · intro h
    cases h with
    | next h hstep => exact ⟨_, h, hstep⟩
  · rintro ⟨e, h, hstep⟩
    exact .next h hstep

/-- A chain has one start. -/
theorem Chain.exists_start (h : Chain start step n d) : ∃ s, start s ∧ Chain (· = s) step n d := by
  induction h with
  | @here d h => exact ⟨d, h, .here rfl⟩
  | next _ hstep ih =>
      obtain ⟨s, hs, hchain⟩ := ih
      exact ⟨s, hs, .next hchain hstep⟩

/-! ## Layers -/

theorem exists_least {P : Nat → Prop} (h : P n) : ∃ m ≤ n, P m ∧ ∀ k < m, ¬ P k := by
  classical
  exact ⟨Nat.find ⟨n, h⟩, Nat.find_min' _ h, Nat.find_spec ⟨n, h⟩, fun k => Nat.find_min ⟨n, h⟩⟩

theorem Layer.unique (h : Layer start step n d) (h' : Layer start step m d) : n = m := by
  rcases Nat.lt_trichotomy n m with hlt | heq | hlt
  · exact absurd h.1 (h'.2 n hlt)
  · exact heq
  · exact absurd h'.1 (h.2 m hlt)

/-- What a chain reaches has a layer, no later than the chain is long. -/
theorem Chain.exists_layer (h : Chain start step n d) : ∃ m ≤ n, Layer start step m d :=
  exists_least h

/-- Shortest chains are shortest all along. -/
theorem Layer.pred (h : Layer start step (n + 1) d) : ∃ e, Layer start step n e ∧ step e d := by
  obtain ⟨e, he, hstep⟩ := chain_succ.mp h.1
  refine ⟨e, ⟨he, fun m hlt hm => ?_⟩, hstep⟩
  exact h.2 (m + 1) (Nat.succ_lt_succ hlt) (.next hm hstep)

theorem layer_zero : Layer start step 0 d ↔ start d := by
  constructor
  · exact fun h => chain_zero.mp h.1
  · exact fun h => ⟨.here h, fun m hlt => absurd hlt (Nat.not_lt_zero m)⟩

/-- A layer is what the one before steps to, less what is in a layer already. -/
theorem layer_succ : Layer start step (n + 1) d ↔
    (∃ e, Layer start step n e ∧ step e d) ∧ ∀ m ≤ n, ¬ Layer start step m d := by
  constructor
  · intro h
    refine ⟨h.pred, fun m hle hm => ?_⟩
    have heq := h.unique hm
    omega
  · rintro ⟨⟨e, he, hstep⟩, hnew⟩
    refine ⟨.next he.1 hstep, fun m hlt hm => ?_⟩
    obtain ⟨k, hle, hk⟩ := hm.exists_layer
    exact hnew k (by omega) hk

/-! ## A search and its frontier -/

/-- A search after `n` rounds: its frontier is layer `n`, and it has seen all layers up to it. -/
structure Searched (start : D → Prop) (step : D → D → Prop) (n : Nat) (frontier seen : D → Prop) :
    Prop where
  frontier_iff : ∀ d, frontier d ↔ Layer start step n d
  seen_iff : ∀ d, seen d ↔ ∃ m ≤ n, Layer start step m d

theorem Searched.init {frontier seen : D → Prop} (hfrontier : ∀ d, frontier d ↔ start d)
    (hseen : ∀ d, seen d ↔ start d) : Searched start step 0 frontier seen where
  frontier_iff d := (hfrontier d).trans layer_zero.symm
  seen_iff d := by
    rw [hseen]
    constructor
    · exact fun h => ⟨0, le_rfl, layer_zero.mpr h⟩
    · rintro ⟨m, hle, hm⟩
      rw [Nat.le_zero.mp hle] at hm
      exact layer_zero.mp hm

/-- One round: the next frontier is what is one step away and new. -/
theorem Searched.next {frontier seen frontier' seen' : D → Prop}
    (h : Searched start step n frontier seen)
    (hfrontier : ∀ d, frontier' d ↔ ¬ seen d ∧ ∃ e, frontier e ∧ step e d)
    (hseen : ∀ d, seen' d ↔ seen d ∨ frontier' d) : Searched start step (n + 1) frontier' seen' := by
  have hlayer : ∀ d, frontier' d ↔ Layer start step (n + 1) d := by
    intro d
    rw [hfrontier, layer_succ, h.seen_iff]
    simp only [h.frontier_iff]
    push Not
    exact and_comm
  refine ⟨hlayer, fun d => ?_⟩
  rw [hseen, hlayer, h.seen_iff]
  constructor
  · rintro (⟨m, hle, hm⟩ | hd)
    · exact ⟨m, by omega, hm⟩
    · exact ⟨n + 1, le_rfl, hd⟩
  · rintro ⟨m, hle, hm⟩
    rcases Nat.lt_or_eq_of_le hle with hlt | rfl
    · exact Or.inl ⟨m, by omega, hm⟩
    · exact Or.inr hm

/-! ## What the layers touch -/

variable {F : Type} {touch : D → F → Prop} {f : F}

/-- `f` is touched from the end of a chain of `n` steps, that is, reached in `n + 1`. -/
def Touched (start : D → Prop) (step : D → D → Prop) (touch : D → F → Prop) (n : Nat) (f : F) : Prop :=
  ∃ d, Chain start step n d ∧ touch d f

/-- Something in layer `n` touches `f`. -/
def LayerTouches (start : D → Prop) (step : D → D → Prop) (touch : D → F → Prop) (n : Nat) (f : F) :
    Prop :=
  ∃ d, Layer start step n d ∧ touch d f

theorem LayerTouches.touched (h : LayerTouches start step touch n f) : Touched start step touch n f := by
  obtain ⟨d, hd, htouch⟩ := h
  exact ⟨d, hd.1, htouch⟩

theorem Touched.exists_layer (h : Touched start step touch n f) :
    ∃ m ≤ n, LayerTouches start step touch m f := by
  obtain ⟨d, hd, htouch⟩ := h
  obtain ⟨m, hle, hm⟩ := hd.exists_layer
  exact ⟨m, hle, d, hm, htouch⟩

/-- The first layer to touch `f` is where the shortest way to `f` ends. -/
theorem first_layerTouches_iff : (LayerTouches start step touch n f ∧
      ∀ m < n, ¬ LayerTouches start step touch m f) ↔
    Touched start step touch n f ∧ ∀ m < n, ¬ Touched start step touch m f := by
  constructor
  · rintro ⟨h, hfirst⟩
    refine ⟨h.touched, fun m hlt hm => ?_⟩
    obtain ⟨k, hle, hk⟩ := hm.exists_layer
    exact hfirst k (by omega) hk
  · rintro ⟨h, hfirst⟩
    refine ⟨?_, fun m hlt hm => hfirst m hlt hm.touched⟩
    obtain ⟨k, hle, hk⟩ := h.exists_layer
    rcases Nat.lt_or_eq_of_le hle with hlt | rfl
    · exact absurd hk.touched (hfirst k hlt)
    · exact hk

/-- What is touched in time has a first layer that touches it. -/
theorem Touched.exists_first (h : Touched start step touch n f) :
    ∃ m ≤ n, Touched start step touch m f ∧ ∀ k < m, ¬ Touched start step touch k f :=
  exists_least h

/-! ## What is kept from the first round that has it -/

variable {V : Type} (kept new : Nat → Option V) {v : V}

theorem kept_eq_none_iff (hzero : kept 0 = none) (hnext : ∀ n, kept (n + 1) = (kept n).or (new n)) :
    kept n = none ↔ ∀ k < n, new k = none := by
  induction n with
  | zero => simp [hzero]
  | succ n ih =>
      rw [hnext, Option.or_eq_none_iff, ih]
      constructor
      · rintro ⟨hbefore, hn⟩ k hk
        rcases Nat.lt_succ_iff_lt_or_eq.mp hk with hlt | rfl
        · exact hbefore k hlt
        · exact hn
      · exact fun h => ⟨fun k hk => h k (by omega), h n (by omega)⟩

/-- What is kept is what the first round with anything new had. -/
theorem kept_eq_some_iff (hzero : kept 0 = none) (hnext : ∀ n, kept (n + 1) = (kept n).or (new n)) :
    kept n = some v ↔ ∃ m < n, (∀ k < m, new k = none) ∧ new m = some v := by
  induction n with
  | zero => simp [hzero]
  | succ n ih =>
      rw [hnext, Option.or_eq_some_iff, ih, kept_eq_none_iff kept new hzero hnext]
      constructor
      · rintro (⟨m, hlt, hm⟩ | hn)
        · exact ⟨m, by omega, hm⟩
        · exact ⟨n, by omega, hn⟩
      · rintro ⟨m, hlt, hm⟩
        rcases Nat.lt_succ_iff_lt_or_eq.mp hlt with hlt | rfl
        · exact Or.inl ⟨m, hlt, hm⟩
        · exact Or.inr hm

end Devscout.Lib
