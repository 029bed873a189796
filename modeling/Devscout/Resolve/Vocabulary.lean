/-
# Devscout.Resolve.Vocabulary -- which base names are handler bases

The vocabulary a run derives is the least set of names that holds the seeds, the bases
registrations admit, and every type passing its own parameter through a base of the
set. The order of the registrations and of the rounds does not show in it.
-/

import Devscout.Resolve.BusVocab

namespace Devscout.Resolve

open Lib

section Vocabulary

variable (resolve : Resolver) (fragments : Fragments) (index : DefIndex) (contexts : Contexts)
  (sent : List MessageIdentity)

/-- What a registration admits: a base of the registered definition whose argument is a
message it receives and somebody sends, when the definition itself is not sent. -/
structure Registers (file : Str) (registration : FragHandlerRegistration) (base : Str) : Prop where
  admitted : ∃ ctx defIdx, contexts.get? file = some ctx ∧
    resolveTypeText resolve registration.handler registration.namespace_ [] ctx = some defIdx ∧
    MessageIdentity.plain defIdx ∉ sent ∧ (contexts.get? (index.def_ defIdx).file).isSome ∧
    ∃ e ∈ declarations fragments, e.2.id = (index.def_ defIdx).id ∧ base ∈ e.2.bases ∧
      ∃ text nested, baseArgument e.2 base = some (text, nested) ∧
        argumentAdmits resolve index contexts sent defIdx text = true

/-- The least vocabulary. -/
inductive HandlerBase : Str → Prop where
  | seed {base : Str} : base ∈ CONSUMER_BASES → HandlerBase base
  | registered {f : Str × Fragment} {registration : FragHandlerRegistration} {base : Str} :
      f ∈ fragments → registration ∈ f.2.handlerRegistrations →
      Registers resolve fragments index contexts sent f.1 registration base → HandlerBase base
  | intermediate {d : FragDef} {base : Str} : d ∈ allDeclarations fragments →
      (declaredIndex index d).isSome → base ∈ d.bases → passesThrough d base = true →
      HandlerBase base → HandlerBase (simpleName d.id)

/-! ## Registrations -/

variable {resolve fragments index contexts sent}

/-- A registration offers a base, with the message it carries: the handler resolves to a
definition that is not itself sent, and some declaration of it names the base with a concrete
argument. -/
def Offers (resolve : Resolver) (fragments : Fragments) (index : DefIndex) (contexts : Contexts)
    (sent : List MessageIdentity) (file : Str) (registration : FragHandlerRegistration) (defIdx : Nat)
    (base text : Str) : Prop :=
  ∃ ctx, contexts.get? file = some ctx ∧
    resolveTypeText resolve registration.handler registration.namespace_ [] ctx = some defIdx ∧
    MessageIdentity.plain defIdx ∉ sent ∧ (contexts.get? (index.def_ defIdx).file).isSome ∧
    ∃ e ∈ declarations fragments, e.2.id = (index.def_ defIdx).id ∧ base ∈ e.2.bases ∧
      ∃ nested, baseArgument e.2 base = some (text, nested)

/-- Which base is offered and taught may be said before the offer or after it. -/
theorem exists_offers_iff {P : Nat → Str → Prop} {b : Str} :
    (∃ f ∈ fragments, ∃ registration ∈ f.2.handlerRegistrations, ∃ defIdx base text,
      Offers resolve fragments index contexts sent f.1 registration defIdx base text ∧
        b = base ∧ P defIdx text) ↔
      ∃ f ∈ fragments, ∃ registration ∈ f.2.handlerRegistrations, ∃ defIdx text,
        Offers resolve fragments index contexts sent f.1 registration defIdx b text ∧ P defIdx text := by
  constructor
  · rintro ⟨f, hf, registration, hr, defIdx, base, text, hoffers, rfl, h⟩
    exact ⟨f, hf, registration, hr, defIdx, text, hoffers, h⟩
  · rintro ⟨f, hf, registration, hr, defIdx, text, hoffers, h⟩
    exact ⟨f, hf, registration, hr, defIdx, b, text, hoffers, rfl, h⟩

theorem registers_iff {file : Str} {registration : FragHandlerRegistration} {base : Str} :
    Registers resolve fragments index contexts sent file registration base ↔
      ∃ defIdx text, Offers resolve fragments index contexts sent file registration defIdx base text ∧
        argumentAdmits resolve index contexts sent defIdx text = true := by
  constructor
  · rintro ⟨ctx, defIdx, hctx, hresolve, hunsent, hfile, e, he, hid, hbase, text, nested, harg, hadmits⟩
    exact ⟨defIdx, text, ⟨ctx, hctx, hresolve, hunsent, hfile, e, he, hid, hbase, nested, harg⟩, hadmits⟩
  · rintro ⟨defIdx, text, ⟨ctx, hctx, hresolve, hunsent, hfile, e, he, hid, hbase, nested, harg⟩, hadmits⟩
    exact ⟨ctx, defIdx, hctx, hresolve, hunsent, hfile, e, he, hid, hbase, text, nested, harg, hadmits⟩

section Gain

variable (keeps holds : Harvest → Prop) (brings : Nat → Str → Str → Prop)
  (hbase : ∀ defIdx d acc base, keeps acc →
    keeps (learnBase resolve fragments index contexts sent defIdx d acc base) ∧
      (holds (learnBase resolve fragments index contexts sent defIdx d acc base) ↔
        holds acc ∨ ∃ text nested, baseArgument d base = some (text, nested) ∧ brings defIdx base text))

include hbase

/-- What the bases of one registered definition bring, its registration brings. -/
theorem learnRegistration_gain {file : Str} {registration : FragHandlerRegistration} {acc : Harvest}
    (hacc : keeps acc) :
    keeps (learnRegistration resolve fragments index contexts sent file acc registration) ∧
      (holds (learnRegistration resolve fragments index contexts sent file acc registration) ↔
        holds acc ∨ ∃ defIdx base text,
          Offers resolve fragments index contexts sent file registration defIdx base text ∧
            brings defIdx base text) := by
  unfold learnRegistration
  cases hhandler : (contexts.get? file).bind fun ctx =>
      resolveTypeText resolve registration.handler registration.namespace_ [] ctx with
  | none =>
      refine ⟨hacc, Or.inl, ?_⟩
      rintro (h | ⟨defIdx, base, text, ⟨ctx, hctx, hresolve, -⟩, -⟩)
      · exact h
      · rw [hctx, Option.bind_some, hresolve] at hhandler
        cases hhandler
  | some defIdx =>
      obtain ⟨ctx, hctx, hresolve⟩ := Option.bind_eq_some_iff.mp hhandler
      -- the registration is about this one definition
      have hone : ∀ {ctx' defIdx'}, contexts.get? file = some ctx' →
          resolveTypeText resolve registration.handler registration.namespace_ [] ctx' =
            some defIdx' → defIdx' = defIdx := by
        intro ctx' defIdx' hctx' hresolve'
        obtain rfl := Option.some.inj (hctx.symm.trans hctx')
        exact Option.some.inj (hresolve'.symm.trans hresolve)
      by_cases hskip : MessageIdentity.plain defIdx ∈ sent ∨
          (contexts.get? (index.def_ defIdx).file).isNone
      · simp only [hskip, if_true]
        refine ⟨hacc, Or.inl, ?_⟩
        rintro (h | ⟨defIdx', base, text, ⟨ctx', hctx', hresolve', hunsent, hfile, -⟩, -⟩)
        · exact h
        · rw [hone hctx' hresolve'] at hunsent hfile
          rcases hskip with hsent | hnone
          · exact absurd hsent hunsent
          · rw [Option.isNone_iff_eq_none.mp hnone] at hfile
            cases hfile
      · simp only [hskip, if_false]
        rw [not_or] at hskip
        have hdeclarations := foldl_gain_of keeps holds
          (fun e : Str × FragDef => ∃ base ∈ e.2.bases, ∃ text nested,
            baseArgument e.2 base = some (text, nested) ∧ brings defIdx base text)
          (fun e (_ : e ∈ (declarations fragments).filter fun e => e.2.id == (index.def_ defIdx).id)
              s hs =>
            foldl_gain_of keeps holds _ (fun base _ s hs => hbase defIdx e.2 s base hs) hs)
          hacc
        refine ⟨hdeclarations.1, hdeclarations.2.trans (or_congr Iff.rfl ⟨?_, ?_⟩)⟩
        · rintro ⟨e, he, base, hbase, text, nested, harg, hbrings⟩
          obtain ⟨hmem, hid⟩ := List.mem_filter.mp he
          have hfile : (contexts.get? (index.def_ defIdx).file).isSome := by
            simpa [Option.isSome_iff_ne_none] using hskip.2
          exact ⟨defIdx, base, text, ⟨ctx, hctx, hresolve, hskip.1, hfile, e, hmem, by simpa using hid,
            hbase, nested, harg⟩, hbrings⟩
        · rintro ⟨defIdx', base, text, hoffers, hbrings⟩
          obtain ⟨ctx', hctx', hresolve', -, -, e, hmem, hid, hbase, nested, harg⟩ := hoffers
          rw [hone hctx' hresolve'] at hid hbrings
          exact ⟨e, List.mem_filter.mpr ⟨hmem, by simpa using hid⟩, base, hbase, text, nested, harg,
            hbrings⟩

/-- What the registrations of all files bring. -/
theorem harvestRegistrations_gain {start : Harvest} (hstart : keeps start) :
    holds (harvestRegistrations resolve fragments index contexts sent start) ↔
      holds start ∨ ∃ f ∈ fragments, ∃ registration ∈ f.2.handlerRegistrations, ∃ defIdx base text,
        Offers resolve fragments index contexts sent f.1 registration defIdx base text ∧
          brings defIdx base text := by
  refine (foldl_gain_of keeps holds (fun f : Str × Fragment =>
    ∃ registration ∈ f.2.handlerRegistrations, ∃ defIdx base text,
      Offers resolve fragments index contexts sent f.1 registration defIdx base text ∧
        brings defIdx base text) (fun f _ s hs => ?_) hstart).2
  refine foldl_gain_of keeps holds (fun registration => ∃ defIdx base text,
    Offers resolve fragments index contexts sent f.1 registration defIdx base text ∧
      brings defIdx base text) (fun registration _ s hs => ?_) hs
  exact learnRegistration_gain keeps holds brings hbase hs

end Gain

theorem mem_learnBase {defIdx : Nat} {d : FragDef} {acc : Harvest} {base b : Str} :
    b ∈ (learnBase resolve fragments index contexts sent defIdx d acc base).1.consumerBases ↔
      b ∈ acc.1.consumerBases ∨ ∃ text nested, baseArgument d base = some (text, nested) ∧
        b = base ∧ argumentAdmits resolve index contexts sent defIdx text = true := by
  unfold learnBase
  by_cases hheld : base ∈ acc.1.consumerBases
  · rw [if_pos hheld]
    constructor
    · exact Or.inl
    · rintro (h | ⟨-, -, -, rfl, -⟩)
      · exact h
      · exact hheld
  · -- the property is asked only when the argument does not admit
    rw [if_neg hheld]
    cases harg : baseArgument d base with
    | none => simp
    | some argument =>
        obtain ⟨text, nested⟩ := argument
        by_cases hadmits : argumentAdmits resolve index contexts sent defIdx text = true
        · simp [hadmits]
        · have hno : ¬∃ text' nested', some (text, nested) = some (text', nested') ∧
              b = base ∧ argumentAdmits resolve index contexts sent defIdx text' = true := by
            rintro ⟨text', nested', heq, -, hadmits'⟩
            cases heq
            exact hadmits hadmits'
          simp only [hadmits, Bool.false_eq_true, if_false, hno, or_false]
          split <;> rfl

/-- What all the registrations add. -/
theorem mem_harvestRegistrations {start : Harvest} {b : Str} :
    b ∈ (harvestRegistrations resolve fragments index contexts sent start).1.consumerBases ↔
      b ∈ start.1.consumerBases ∨ ∃ f ∈ fragments, ∃ registration ∈ f.2.handlerRegistrations,
        Registers resolve fragments index contexts sent f.1 registration b := by
  rw [harvestRegistrations_gain (fun _ => True) (fun h : Harvest => b ∈ h.1.consumerBases)
    (fun defIdx base text => b = base ∧ argumentAdmits resolve index contexts sent defIdx text = true)
    (fun _ _ _ _ _ => ⟨trivial, mem_learnBase⟩) trivial, exists_offers_iff]
  simp only [registers_iff]

theorem handlerBase_of_harvest {b : Str}
    (h : b ∈ (harvestRegistrations resolve fragments index contexts sent
      (⟨CONSUMER_BASES, []⟩, false)).1.consumerBases) :
    HandlerBase resolve fragments index contexts sent b := by
  rcases mem_harvestRegistrations.mp h with hseed | ⟨f, hf, registration, hr, hregisters⟩
  · exact .seed hseed
  · exact .registered hf hr hregisters

/-! ## Intermediates -/

/-- What a declaration adds: its own simple name, to the one set or to the other. -/
theorem spreadThrough_eq_some {d : FragDef} {v w : BusVocabulary}
    (h : spreadThrough index d v = some w) :
    simpleName d.id ∉ v.consumerBases ∧
      ((w = { v with consumerBases := v.consumerBases ++ [simpleName d.id] } ∧
          (declaredIndex index d).isSome ∧
          ∃ base ∈ d.bases, passesThrough d base = true ∧ base ∈ v.consumerBases) ∨
        (w = { v with bindingOnlyBases := v.bindingOnlyBases ++ [simpleName d.id] } ∧
          simpleName d.id ∉ v.bindingOnlyBases ∧ (declaredIndex index d).isSome ∧
          ∃ base ∈ d.bases, passesThrough d base = true ∧ base ∈ v.bindingOnlyBases)) := by
  unfold spreadThrough at h
  split at h
  · cases h
  · rename_i hskip
    rw [not_or] at hskip
    refine ⟨hskip.2, ?_⟩
    have hindexed : (declaredIndex index d).isSome := by
      simpa [Option.isSome_iff_ne_none] using hskip.1
    split at h
    · rename_i hconsumer
      cases h
      obtain ⟨base, hbase, hpass⟩ := List.any_eq_true.mp hconsumer
      rw [Bool.and_eq_true, decide_eq_true_eq] at hpass
      exact Or.inl ⟨rfl, hindexed, base, hbase, hpass⟩
    · split at h
      · rename_i hbinding
        cases h
        obtain ⟨base, hbase, hpass⟩ := List.any_eq_true.mp hbinding.1
        rw [Bool.and_eq_true, Bool.and_eq_true, decide_eq_true_eq] at hpass
        exact Or.inr ⟨rfl, hbinding.2, hindexed, base, hbase, hpass.1.1, of_decide_eq_true hpass.2⟩
      · cases h

/-- A vocabulary no declaration adds to is closed under passing through. -/
theorem closed_of_spreadThrough {d : FragDef} {v : BusVocabulary} {base : Str}
    (h : spreadThrough index d v = none) (hindexed : (declaredIndex index d).isSome)
    (hbase : base ∈ d.bases) (hpass : passesThrough d base = true) (hmem : base ∈ v.consumerBases) :
    simpleName d.id ∈ v.consumerBases := by
  by_contra hname
  have hgo : ¬((declaredIndex index d).isNone ∨ simpleName d.id ∈ v.consumerBases) := by
    simp [hname, Option.isSome_iff_ne_none.mp hindexed]
  have hany : (d.bases.any fun b => passesThrough d b && decide (b ∈ v.consumerBases)) = true :=
    List.any_eq_true.mpr ⟨base, hbase, by simp [hpass, hmem]⟩
  unfold spreadThrough at h
  rw [if_neg hgo, if_pos hany] at h
  cases h

/-- How many declarations' names each set still lacks. -/
def lacking (fragments : Fragments) (v : BusVocabulary) : Nat :=
  (allDeclarations fragments).countP (fun d => simpleName d.id ∉ v.consumerBases) +
    (allDeclarations fragments).countP fun d => simpleName d.id ∉ v.bindingOnlyBases

theorem countP_append_lt {d : FragDef} {ds : List FragDef} {names : List Str} (hd : d ∈ ds)
    (hname : simpleName d.id ∉ names) :
    ds.countP (fun e => simpleName e.id ∉ names ++ [simpleName d.id]) <
      ds.countP fun e => simpleName e.id ∉ names := by
  refine countP_lt_countP (fun e _ he => ?_) hd ?_ ?_
  · rw [decide_eq_true_eq, List.mem_append, not_or] at he
    exact decide_eq_true he.1
  · exact decide_eq_true hname
  · simp

theorem lacking_lt {d : FragDef} {v w : BusVocabulary} (hd : d ∈ allDeclarations fragments)
    (h : spreadThrough index d v = some w) : lacking fragments w < lacking fragments v := by
  unfold lacking
  obtain ⟨hname, ⟨rfl, -⟩ | ⟨rfl, hnew, -⟩⟩ := spreadThrough_eq_some h
  · exact Nat.add_lt_add_right (countP_append_lt hd hname) _
  · exact Nat.add_lt_add_left (countP_append_lt hd hnew) _

theorem lacking_le (fragments : Fragments) (v : BusVocabulary) :
    lacking fragments v ≤ 2 * (allDeclarations fragments).length := by
  have hle (names : List Str) : (allDeclarations fragments).countP
      (fun d => decide (simpleName d.id ∉ names)) ≤ (allDeclarations fragments).length :=
    List.countP_le_length
  have hconsumer := hle v.consumerBases
  have hbinding := hle v.bindingOnlyBases
  unfold lacking
  omega

/-- What no declaration's names break, the closure keeps, and at its end none adds anything. -/
theorem closeOverIntermediates_keeps {P : BusVocabulary → Prop}
    (hkeep : ∀ d ∈ allDeclarations fragments, ∀ v w, spreadThrough index d v = some w → P v → P w)
    {start : BusVocabulary} (hstart : P start) :
    P (closeOverIntermediates fragments index start) ∧
      ∀ d ∈ allDeclarations fragments,
        spreadThrough index d (closeOverIntermediates fragments index start) = none :=
  saturate_visits (fun _ hd _ _ h => lacking_lt hd h) hkeep
    (Nat.lt_succ_of_le (lacking_le fragments start)) hstart

/-- The closure holds the start, only names that belong, and is closed. -/
theorem closeOverIntermediates_spec {start : BusVocabulary}
    (hstart : ∀ b ∈ start.consumerBases,
      HandlerBase resolve fragments index contexts sent b) :
    let closed := closeOverIntermediates fragments index start
    ((∀ b ∈ closed.consumerBases, HandlerBase resolve fragments index contexts sent b) ∧
        start.consumerBases ⊆ closed.consumerBases) ∧
      ∀ d ∈ allDeclarations fragments, spreadThrough index d closed = none := by
  refine closeOverIntermediates_keeps
    (P := fun v => (∀ b ∈ v.consumerBases, HandlerBase resolve fragments index contexts sent b) ∧
      start.consumerBases ⊆ v.consumerBases)
    (fun d hd v w h hv => ?_) ⟨hstart, List.Subset.refl _⟩
  obtain ⟨-, ⟨rfl, hindexed, base, hbase, hpass, hmem⟩ | ⟨rfl, -⟩⟩ := spreadThrough_eq_some h
  · refine ⟨fun b hb => ?_, List.subset_append_of_subset_left _ hv.2⟩
    rcases List.mem_append.mp hb with hb | hb
    · exact hv.1 b hb
    · rw [List.mem_singleton.mp hb]
      exact .intermediate hd hindexed hbase hpass (hv.1 base hmem)
  · exact hv

/-- **The derived vocabulary is the least one.** -/
theorem mem_consumerBases_iff {b : Str} :
    b ∈ (deriveConsumerBases resolve fragments index contexts sent).1.consumerBases ↔
      HandlerBase resolve fragments index contexts sent b := by
  obtain ⟨⟨hsound, hgrown⟩, hclosed⟩ :=
    closeOverIntermediates_spec (fun b (hb : b ∈ (harvestRegistrations resolve fragments index contexts
      sent (⟨CONSUMER_BASES, []⟩, false)).1.consumerBases) => handlerBase_of_harvest hb)
  constructor
  · exact hsound b
  · -- every rule of the least set is matched by what the closure has done
    intro h
    induction h with
    | seed hseed => exact hgrown (mem_harvestRegistrations.mpr (Or.inl hseed))
    | registered hf hr hregisters =>
        exact hgrown (mem_harvestRegistrations.mpr (Or.inr ⟨_, hf, _, hr, hregisters⟩))
    | intermediate hd hindexed hbase hpass _ ih =>
        show simpleName _ ∈ (closeOverIntermediates fragments index _).consumerBases
        exact closed_of_spreadThrough (hclosed _ hd) hindexed hbase hpass ih

end Vocabulary

end Devscout.Resolve
