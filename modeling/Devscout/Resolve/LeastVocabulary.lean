/-
# Devscout.Resolve.LeastVocabulary -- the vocabulary as a least fixed point

Two sets of base names are derived together. The full role starts from the seeds and from what
registrations admit by a base's argument, the binding-only role from what they admit by a bound
property; both are handed on by every type that passes its own parameter through a base. The
loop fills the two side by side, skips a base once it has the full role, and drops from the
lesser set what has come into the fuller one.

None of this shows in the end. The full role is the least set that is closed under its rules,
the binding-only role the least set closed under its own, less the full role, and whether a
registration contributed depends on what is admitted alone. So the order in which files, types,
bases and registrations are read cannot matter.
-/

import Devscout.Resolve.Vocabulary
import Mathlib

namespace Devscout.Resolve

open Lib

/-! ## The two roles -/

section Roles

variable (resolve : Resolver) (fragments : Fragments) (index : DefIndex) (contexts : Contexts)
  (sent : List MessageIdentity)

/-- Some registration admits the base by its argument. -/
def AdmittedByArgument (base : Str) : Prop :=
  ∃ f ∈ fragments, ∃ registration ∈ f.2.handlerRegistrations, ∃ defIdx text,
    Offers resolve fragments index contexts sent f.1 registration defIdx base text ∧
      argumentAdmits resolve index contexts sent defIdx text = true

/-- Some registration admits the base by a bound property of the registered type. -/
def AdmittedByProperty (base : Str) : Prop :=
  ∃ f ∈ fragments, ∃ registration ∈ f.2.handlerRegistrations, ∃ defIdx text,
    Offers resolve fragments index contexts sent f.1 registration defIdx base text ∧
      defBindsSentMessage resolve fragments index contexts sent defIdx = true

/-- With a base, the set has every declared type that passes its first type argument through
it. -/
def PassesOn (S : Set Str) : Prop :=
  ∀ d ∈ allDeclarations fragments, (declaredIndex index d).isSome →
    ∀ base ∈ d.bases, passesThrough d base = true → base ∈ S → simpleName d.id ∈ S

/-- The rules of the full role. -/
structure FullRole (S : Set Str) : Prop where
  seeds : ∀ base ∈ CONSUMER_BASES, base ∈ S
  admitted : ∀ base, AdmittedByArgument resolve fragments index contexts sent base → base ∈ S
  passesOn : PassesOn fragments index S

/-- The rules of the binding-only role. -/
structure BindingRole (S : Set Str) : Prop where
  admitted : ∀ base, AdmittedByProperty resolve fragments index contexts sent base → base ∈ S
  passesOn : PassesOn fragments index S

/-- The least set with the binding-only role. -/
inductive BindingBase : Str → Prop
  | admitted {base : Str} : AdmittedByProperty resolve fragments index contexts sent base →
      BindingBase base
  | intermediate {d : FragDef} {base : Str} : d ∈ allDeclarations fragments →
      (declaredIndex index d).isSome → base ∈ d.bases → passesThrough d base = true →
      BindingBase base → BindingBase (simpleName d.id)

variable {resolve fragments index contexts sent}

theorem handlerBase_isLeast :
    IsLeast {S | FullRole resolve fragments index contexts sent S}
      {base | HandlerBase resolve fragments index contexts sent base} := by
  refine ⟨⟨fun _ => .seed, ?_, ?_⟩, ?_⟩
  · rintro base ⟨f, hf, registration, hr, h⟩
    exact .registered hf hr (registers_iff.mpr h)
  · intro d hd hindexed base hbase hpass hmem
    exact .intermediate hd hindexed hbase hpass hmem
  · intro S hS base hbase
    induction hbase with
    | seed h => exact hS.seeds _ h
    | registered hf hr h => exact hS.admitted _ ⟨_, hf, _, hr, registers_iff.mp h⟩
    | intermediate hd hindexed hbase hpass _ ih => exact hS.passesOn _ hd hindexed _ hbase hpass ih

theorem bindingBase_isLeast :
    IsLeast {S | BindingRole resolve fragments index contexts sent S}
      {base | BindingBase resolve fragments index contexts sent base} := by
  refine ⟨⟨fun _ => .admitted, ?_⟩, ?_⟩
  · intro d hd hindexed base hbase hpass hmem
    exact .intermediate hd hindexed hbase hpass hmem
  · intro S hS base hbase
    induction hbase with
    | admitted h => exact hS.admitted _ h
    | intermediate hd hindexed hbase hpass _ ih => exact hS.passesOn _ hd hindexed _ hbase hpass ih

end Roles

/-! ## What the registrations leave -/

section Harvested

variable {resolve : Resolver} {fragments : Fragments} {index : DefIndex} {contexts : Contexts}
  {sent : List MessageIdentity}

/-- The vocabulary before any registration is read. -/
def seeded : Harvest := (⟨CONSUMER_BASES, []⟩, false)

/-- A base has one of the two roles. -/
def HasRole (v : BusVocabulary) (base : Str) : Prop :=
  base ∈ v.consumerBases ∨ base ∈ v.bindingOnlyBases

/-- A text by which a definition's base comes into one of the roles. -/
def Teaches (resolve : Resolver) (fragments : Fragments) (index : DefIndex) (contexts : Contexts)
    (sent : List MessageIdentity) (defIdx : Nat) (text : Str) : Prop :=
  argumentAdmits resolve index contexts sent defIdx text = true ∨
    defBindsSentMessage resolve fragments index contexts sent defIdx = true

/-- A base is learnt in one role or the other, or has a role already, or there is nothing to
learn it by. -/
theorem learnBase_cases (resolve : Resolver) (fragments : Fragments) (index : DefIndex)
    (contexts : Contexts) (sent : List MessageIdentity) (defIdx : Nat) (d : FragDef) (acc : Harvest)
    (base : Str) :
    let after := learnBase resolve fragments index contexts sent defIdx d acc base
    let taught := ∃ text nested, baseArgument d base = some (text, nested) ∧
      Teaches resolve fragments index contexts sent defIdx text
    after = acc ∧ (taught → HasRole acc.1 base) ∨
      taught ∧ base ∉ acc.1.consumerBases ∧
        (after = ({ acc.1 with consumerBases := acc.1.consumerBases ++ [base] }, true) ∨
          after = ({ acc.1 with bindingOnlyBases := acc.1.bindingOnlyBases ++ [base] }, true)) := by
  intro after taught
  -- the full role is final: such a base is not looked at again
  by_cases hheld : base ∈ acc.1.consumerBases
  · exact .inl ⟨if_pos hheld, fun _ => .inl hheld⟩
  cases harg : baseArgument d base with
  | none =>
      refine .inl ⟨by simp [after, learnBase, hheld, harg], ?_⟩
      rintro ⟨text, nested, h, -⟩
      rw [harg] at h
      cases h
  | some argument =>
      obtain ⟨text, nested⟩ := argument
      by_cases hadmits : argumentAdmits resolve index contexts sent defIdx text = true
      · exact .inr ⟨⟨text, nested, harg, .inl hadmits⟩, hheld,
          .inl (by simp [after, learnBase, hheld, harg, hadmits])⟩
      by_cases hbinds : defBindsSentMessage resolve fragments index contexts sent defIdx = true
      · by_cases hnew : base ∈ acc.1.bindingOnlyBases
        · exact .inl ⟨by simp [after, learnBase, hheld, harg, hadmits, hnew], fun _ => .inr hnew⟩
        · exact .inr ⟨⟨text, nested, harg, .inr hbinds⟩, hheld,
            .inr (by simp [after, learnBase, hheld, harg, hadmits, hbinds, hnew])⟩
      · refine .inl ⟨by simp [after, learnBase, hheld, harg, hadmits, hbinds], ?_⟩
        rintro ⟨text', nested', h, hteaches⟩
        rw [harg] at h
        cases h
        exact absurd hteaches (not_or.mpr ⟨hadmits, hbinds⟩)

/-- Whether a base comes into one of the roles does not depend on what has come before. -/
theorem hasRole_learnBase {defIdx : Nat} {d : FragDef} {acc : Harvest} {base b : Str} :
    HasRole (learnBase resolve fragments index contexts sent defIdx d acc base).1 b ↔
      HasRole acc.1 b ∨ ∃ text nested, baseArgument d base = some (text, nested) ∧
        b = base ∧ Teaches resolve fragments index contexts sent defIdx text := by
  rcases learnBase_cases resolve fragments index contexts sent defIdx d acc base with
    ⟨hsame, hheld⟩ | ⟨⟨text, nested, harg, hteaches⟩, -, hafter⟩
  · rw [hsame]
    refine (or_iff_left_of_imp ?_).symm
    rintro ⟨text, nested, harg, rfl, hteaches⟩
    exact hheld ⟨text, nested, harg, hteaches⟩
  · -- the base was taught, whichever of the two sets it went to
    have hiff : (∃ text nested, baseArgument d base = some (text, nested) ∧
        b = base ∧ Teaches resolve fragments index contexts sent defIdx text) ↔ b = base := by
      refine ⟨fun ⟨_, _, _, hb, _⟩ => hb, fun hb => ⟨text, nested, harg, hb, hteaches⟩⟩
    rw [hiff]
    rcases hafter with hafter | hafter
    · rw [hafter, HasRole, HasRole, List.mem_append, List.mem_singleton]
      exact or_right_comm
    · rw [hafter, HasRole, HasRole, List.mem_append, List.mem_singleton]
      exact or_assoc.symm

/-- As long as nothing has contributed nothing has been learnt, and a base other than the seeds
is the first to contribute. -/
theorem contributed_learnBase {defIdx : Nat} {d : FragDef} {acc : Harvest} {base : Str}
    (hacc : acc.2 = false → acc = seeded) :
    ((learnBase resolve fragments index contexts sent defIdx d acc base).2 = false →
        learnBase resolve fragments index contexts sent defIdx d acc base = seeded) ∧
      ((learnBase resolve fragments index contexts sent defIdx d acc base).2 = true ↔
        acc.2 = true ∨ ∃ text nested, baseArgument d base = some (text, nested) ∧
          base ∉ CONSUMER_BASES ∧ Teaches resolve fragments index contexts sent defIdx text) := by
  rcases learnBase_cases resolve fragments index contexts sent defIdx d acc base with
    ⟨hsame, hheld⟩ | ⟨⟨text, nested, harg, hteaches⟩, hnew, hafter⟩
  · rw [hsame]
    refine ⟨hacc, (or_iff_left_of_imp ?_).symm⟩
    rintro ⟨text, nested, harg, hseed, hteaches⟩
    by_contra hquiet
    -- nothing was learnt yet, so the base cannot have had a role
    have hrole := hheld ⟨text, nested, harg, hteaches⟩
    rw [hacc (by simpa using hquiet)] at hrole
    rcases hrole with hconsumer | hbinding
    · exact hseed hconsumer
    · cases hbinding
  · have htrue : (learnBase resolve fragments index contexts sent defIdx d acc base).2 = true := by
      rcases hafter with hafter | hafter <;> rw [hafter]
    refine ⟨fun hfalse => absurd (htrue.symm.trans hfalse) (by decide), iff_of_true htrue ?_⟩
    by_cases hquiet : acc.2 = true
    · exact .inl hquiet
    · -- only the seeds were held until now, and the base was not
      rw [hacc (by simpa using hquiet)] at hnew
      exact .inr ⟨text, nested, harg, hnew, hteaches⟩

/-- A base that is taught, by one route or the other. -/
theorem exists_teaches_iff {b : Str} :
    (∃ f ∈ fragments, ∃ registration ∈ f.2.handlerRegistrations, ∃ defIdx text,
      Offers resolve fragments index contexts sent f.1 registration defIdx b text ∧
        Teaches resolve fragments index contexts sent defIdx text) ↔
      AdmittedByArgument resolve fragments index contexts sent b ∨
        AdmittedByProperty resolve fragments index contexts sent b := by
  constructor
  · rintro ⟨f, hf, registration, hr, defIdx, text, hoffers, hargument | hproperty⟩
    · exact .inl ⟨f, hf, registration, hr, defIdx, text, hoffers, hargument⟩
    · exact .inr ⟨f, hf, registration, hr, defIdx, text, hoffers, hproperty⟩
  · rintro (⟨f, hf, registration, hr, defIdx, text, hoffers, h⟩ |
      ⟨f, hf, registration, hr, defIdx, text, hoffers, h⟩)
    · exact ⟨f, hf, registration, hr, defIdx, text, hoffers, .inl h⟩
    · exact ⟨f, hf, registration, hr, defIdx, text, hoffers, .inr h⟩

/-- The bases with a role after all registrations. -/
theorem hasRole_harvest {b : Str} :
    HasRole (harvestRegistrations resolve fragments index contexts sent seeded).1 b ↔
      b ∈ CONSUMER_BASES ∨ AdmittedByArgument resolve fragments index contexts sent b ∨
        AdmittedByProperty resolve fragments index contexts sent b := by
  rw [harvestRegistrations_gain (fun _ => True) (fun h : Harvest => HasRole h.1 b)
    (fun defIdx base text => b = base ∧ Teaches resolve fragments index contexts sent defIdx text)
    (fun _ _ _ _ _ => ⟨trivial, hasRole_learnBase⟩) trivial, exists_offers_iff, exists_teaches_iff]
  simp [HasRole, seeded]

/-- Whether the registrations contributed: whether one admits a base that is no seed. -/
theorem contributed_harvest :
    (harvestRegistrations resolve fragments index contexts sent seeded).2 = true ↔
      ∃ b, b ∉ CONSUMER_BASES ∧ (AdmittedByArgument resolve fragments index contexts sent b ∨
        AdmittedByProperty resolve fragments index contexts sent b) := by
  rw [harvestRegistrations_gain (fun acc => acc.2 = false → acc = seeded) (fun acc => acc.2 = true)
    (fun defIdx base text => base ∉ CONSUMER_BASES ∧
      Teaches resolve fragments index contexts sent defIdx text)
    (fun _ _ _ _ hacc => contributed_learnBase hacc) fun _ => rfl]
  simp only [← exists_teaches_iff]
  constructor
  · rintro (h | ⟨f, hf, registration, hr, defIdx, base, text, hoffers, hseed, hteaches⟩)
    · cases h
    · exact ⟨base, hseed, f, hf, registration, hr, defIdx, text, hoffers, hteaches⟩
  · rintro ⟨base, hseed, f, hf, registration, hr, defIdx, text, hoffers, hteaches⟩
    exact .inr ⟨f, hf, registration, hr, defIdx, base, text, hoffers, hseed, hteaches⟩

/-! ## What the closure leaves -/

/-- A vocabulary no declaration adds to hands the binding-only role on too, or the fuller one. -/
theorem hasRole_of_spreadThrough {d : FragDef} {v : BusVocabulary} {base : Str}
    (h : spreadThrough index d v = none) (hindexed : (declaredIndex index d).isSome)
    (hbase : base ∈ d.bases) (hpass : passesThrough d base = true)
    (hmem : base ∈ v.bindingOnlyBases) (hnot : base ∉ v.consumerBases) :
    HasRole v (simpleName d.id) := by
  by_contra hname
  rw [HasRole, not_or] at hname
  have hgo : ¬((declaredIndex index d).isNone ∨ simpleName d.id ∈ v.consumerBases) := by
    simp [hname.1, Option.isSome_iff_ne_none.mp hindexed]
  have hany : (d.bases.any fun b => passesThrough d b && decide (b ∉ v.consumerBases) &&
      decide (b ∈ v.bindingOnlyBases)) = true :=
    List.any_eq_true.mpr ⟨base, hbase, by simp [hpass, hmem, hnot]⟩
  unfold spreadThrough at h
  rw [if_neg hgo] at h
  split at h
  · cases h
  · rw [if_pos ⟨hany, hname.2⟩] at h
    cases h

/-- The vocabulary after the closure and before the lesser role is cut. -/
def closed (resolve : Resolver) (fragments : Fragments) (index : DefIndex) (contexts : Contexts)
    (sent : List MessageIdentity) : BusVocabulary :=
  closeOverIntermediates fragments index
    (harvestRegistrations resolve fragments index contexts sent seeded).1

theorem mem_closed_consumerBases {b : Str} :
    b ∈ (closed resolve fragments index contexts sent).consumerBases ↔
      HandlerBase resolve fragments index contexts sent b := mem_consumerBases_iff

/-- Of the closure's binding-only names each has the one role or the other by the rules, and the
names it started from are still there. -/
theorem closed_bindingOnlyBases :
    (∀ b ∈ (closed resolve fragments index contexts sent).bindingOnlyBases,
        BindingBase resolve fragments index contexts sent b ∨
          HandlerBase resolve fragments index contexts sent b) ∧
      (harvestRegistrations resolve fragments index contexts sent seeded).1.bindingOnlyBases ⊆
        (closed resolve fragments index contexts sent).bindingOnlyBases := by
  refine (closeOverIntermediates_keeps
    (P := fun v => (∀ b ∈ v.bindingOnlyBases, BindingBase resolve fragments index contexts sent b ∨
      HandlerBase resolve fragments index contexts sent b) ∧
      (harvestRegistrations resolve fragments index contexts sent seeded).1.bindingOnlyBases ⊆
        v.bindingOnlyBases) (fun d hd v w h hv => ?_) ⟨fun b hb => ?_, List.Subset.refl _⟩).1
  · obtain ⟨-, ⟨rfl, -⟩ | ⟨rfl, -, hindexed, base, hbase, hpass, hmem⟩⟩ := spreadThrough_eq_some h
    · exact hv
    · refine ⟨fun b hb => ?_, List.subset_append_of_subset_left _ hv.2⟩
      rcases List.mem_append.mp hb with hb | hb
      · exact hv.1 b hb
      · -- the name has the role of the base it was passed through
        rw [List.mem_singleton.mp hb]
        rcases hv.1 base hmem with hbinding | hhandler
        · exact .inl (.intermediate hd hindexed hbase hpass hbinding)
        · exact .inr (.intermediate hd hindexed hbase hpass hhandler)
  · rcases hasRole_harvest.mp (.inr hb) with hseed | ⟨f, hf, registration, hr, h⟩ | hproperty
    · exact .inr (.seed hseed)
    · exact .inr (.registered hf hr (registers_iff.mpr h))
    · exact .inl (.admitted hproperty)

theorem closed_quiet : ∀ d ∈ allDeclarations fragments,
    spreadThrough index d (closed resolve fragments index contexts sent) = none :=
  (closeOverIntermediates_keeps (P := fun _ => True) (fun _ _ _ _ _ _ => trivial) trivial).2

/-- What the binding-only rules give has a role in the closure. -/
theorem hasRole_closed {b : Str} (h : BindingBase resolve fragments index contexts sent b) :
    HasRole (closed resolve fragments index contexts sent) b := by
  induction h with
  | admitted hadmitted =>
      -- a registration may have given the base the full role instead
      rcases hasRole_harvest.mpr (.inr (.inr hadmitted)) with hconsumer | hbinding
      · exact .inl (mem_closed_consumerBases.mpr (handlerBase_of_harvest hconsumer))
      · exact .inr (closed_bindingOnlyBases.2 hbinding)
  | intermediate hd hindexed hbase hpass _ ih =>
      have hquiet : spreadThrough index _ (closed resolve fragments index contexts sent) = none :=
        closed_quiet _ hd
      rcases Classical.em (_ ∈ (closed resolve fragments index contexts sent).consumerBases) with
        hin | hout
      · exact .inl (closed_of_spreadThrough hquiet hindexed hbase hpass hin)
      · -- the base is no full one, so it hands on the role it has
        exact hasRole_of_spreadThrough hquiet hindexed hbase hpass (ih.resolve_left hout) hout

/-- **The binding-only role.** What the closure keeps of it is the least set of its rules
without the names of the full role. -/
theorem mem_bindingOnlyBases_iff {b : Str} :
    b ∈ (deriveConsumerBases resolve fragments index contexts sent).1.bindingOnlyBases ↔
      BindingBase resolve fragments index contexts sent b ∧
        ¬HandlerBase resolve fragments index contexts sent b := by
  show b ∈ (closed resolve fragments index contexts sent).bindingOnlyBases.filter _ ↔ _
  rw [List.mem_filter, decide_eq_true_eq, ← mem_closed_consumerBases]
  constructor
  · rintro ⟨hmem, hout⟩
    refine ⟨(closed_bindingOnlyBases.1 b hmem).resolve_right fun h => ?_, hout⟩
    exact hout (mem_closed_consumerBases.mpr h)
  · rintro ⟨hbinding, hout⟩
    exact ⟨(hasRole_closed hbinding).resolve_left hout, hout⟩

end Harvested

/-! ## Order -/

/-- One declaration, its bases in another order. -/
def FragDef.Reordered (d d' : FragDef) : Prop :=
  ∃ bases, bases.Perm d.bases ∧ d' = { d with bases := bases }

/-- One list's items in another order, each replaced by one that `same` says is the same. -/
def ReorderedList {α : Type} (same : α → α → Prop) (l l' : List α) : Prop :=
  ∃ m, m.Perm l ∧ List.Forall₂ same m l'

/-- One file's facts, with its definitions and its registrations in another order. -/
def Fragment.Reordered (f f' : Fragment) : Prop :=
  ReorderedList FragDef.Reordered f.defs f'.defs ∧ f'.handlerRegistrations.Perm f.handlerRegistrations

/-- One corpus, with its files, and what is in them, in another order. -/
def Reordered (fragments fragments' : Fragments) : Prop :=
  ReorderedList (fun f f' => f.1 = f'.1 ∧ f.2.Reordered f'.2) fragments fragments'

theorem ReorderedList.mem_right {α : Type} {same : α → α → Prop} {l l' : List α}
    (h : ReorderedList same l l') {a : α} (ha : a ∈ l) : ∃ b ∈ l', same a b := by
  obtain ⟨m, hperm, hsame⟩ := h
  have hm : a ∈ m := hperm.mem_iff.mpr ha
  clear hperm ha
  induction hsame with
  | nil => cases hm
  | cons hab _ ih =>
      rcases List.mem_cons.mp hm with rfl | hm
      · exact ⟨_, List.mem_cons_self, hab⟩
      · obtain ⟨b, hb, hsame⟩ := ih hm
        exact ⟨b, List.mem_cons_of_mem _ hb, hsame⟩

theorem ReorderedList.mem_left {α : Type} {same : α → α → Prop} {l l' : List α}
    (h : ReorderedList same l l') {b : α} (hb : b ∈ l') : ∃ a ∈ l, same a b := by
  obtain ⟨m, hperm, hsame⟩ := h
  have hm : ∃ a ∈ m, same a b := by
    clear hperm
    induction hsame with
    | nil => cases hb
    | cons hab _ ih =>
        rcases List.mem_cons.mp hb with rfl | hb
        · exact ⟨_, List.mem_cons_self, hab⟩
        · obtain ⟨a, ha, hsame⟩ := ih hb
          exact ⟨a, List.mem_cons_of_mem _ ha, hsame⟩
  obtain ⟨a, ha, hsame⟩ := hm
  exact ⟨a, hperm.mem_iff.mp ha, hsame⟩

theorem FragDef.Reordered.symm {d d' : FragDef} (h : d.Reordered d') : d'.Reordered d := by
  obtain ⟨bases, hperm, rfl⟩ := h
  exact ⟨d.bases, hperm.symm, rfl⟩

/-- All that the derivation sees of one corpus it sees of the other. -/
structure Within (fragments fragments' : Fragments) : Prop where
  registered : ∀ f ∈ fragments, ∀ registration ∈ f.2.handlerRegistrations,
    ∃ f' ∈ fragments', f'.1 = f.1 ∧ registration ∈ f'.2.handlerRegistrations
  declared : ∀ d ∈ allDeclarations fragments, ∃ d' ∈ allDeclarations fragments', d.Reordered d'

theorem mem_allDeclarations {fragments : Fragments} {d : FragDef} :
    d ∈ allDeclarations fragments ↔ ∃ f ∈ fragments, d ∈ f.2.defs := by
  simp [allDeclarations, declarations]

theorem Reordered.within {fragments fragments' : Fragments} (h : Reordered fragments fragments') :
    Within fragments fragments' ∧ Within fragments' fragments := by
  refine ⟨⟨fun f hf registration hr => ?_, fun d hd => ?_⟩,
    ⟨fun f' hf' registration hr => ?_, fun d' hd' => ?_⟩⟩
  · obtain ⟨f', hf', hfile, -, hperm⟩ := h.mem_right hf
    exact ⟨f', hf', hfile.symm, hperm.mem_iff.mpr hr⟩
  · obtain ⟨f, hf, hd⟩ := mem_allDeclarations.mp hd
    obtain ⟨f', hf', -, hdefs, -⟩ := h.mem_right hf
    obtain ⟨d', hd', hsame⟩ := hdefs.mem_right hd
    exact ⟨d', mem_allDeclarations.mpr ⟨f', hf', hd'⟩, hsame⟩
  · obtain ⟨f, hf, hfile, -, hperm⟩ := h.mem_left hf'
    exact ⟨f, hf, hfile, hperm.mem_iff.mp hr⟩
  · obtain ⟨f', hf', hd'⟩ := mem_allDeclarations.mp hd'
    obtain ⟨f, hf, -, hdefs, -⟩ := h.mem_left hf'
    obtain ⟨d, hd, hsame⟩ := hdefs.mem_left hd'
    exact ⟨d, mem_allDeclarations.mpr ⟨f, hf, hd⟩, hsame.symm⟩

section Within

variable {resolve : Resolver} {fragments fragments' : Fragments} {index : DefIndex} {contexts : Contexts}
  {sent : List MessageIdentity}

theorem Within.declaration (h : Within fragments fragments') {e : Str × FragDef}
    (he : e ∈ declarations fragments) : ∃ e' ∈ declarations fragments', e.2.Reordered e'.2 := by
  obtain ⟨d', hd', hsame⟩ := h.declared e.2 (List.mem_map_of_mem he)
  obtain ⟨e', he', rfl⟩ := List.mem_map.mp hd'
  exact ⟨e', he', hsame⟩

theorem Within.offers (h : Within fragments fragments') {file : Str}
    {registration : FragHandlerRegistration} {defIdx : Nat} {base text : Str}
    (hoffers : Offers resolve fragments index contexts sent file registration defIdx base text) :
    Offers resolve fragments' index contexts sent file registration defIdx base text := by
  obtain ⟨ctx, hctx, hresolve, hunsent, hfile, e, he, hid, hbase, nested, harg⟩ := hoffers
  obtain ⟨⟨file', d'⟩, he', bases, hperm, rfl⟩ := h.declaration he
  exact ⟨ctx, hctx, hresolve, hunsent, hfile, _, he', hid, hperm.mem_iff.mpr hbase, nested, harg⟩

theorem Within.binds (h : Within fragments fragments') {defIdx : Nat}
    (hbinds : defBindsSentMessage resolve fragments index contexts sent defIdx = true) :
    defBindsSentMessage resolve fragments' index contexts sent defIdx = true := by
  obtain ⟨message, hmessage, hsent⟩ := List.any_eq_true.mp hbinds
  refine List.any_eq_true.mpr ⟨message, ?_, hsent⟩
  obtain ⟨e, he, hproperty⟩ := List.mem_flatMap.mp hmessage
  obtain ⟨hmem, hindexed⟩ := List.mem_filter.mp he
  obtain ⟨⟨file', d'⟩, he', bases, hperm, rfl⟩ := h.declaration hmem
  exact List.mem_flatMap.mpr ⟨_, List.mem_filter.mpr ⟨he', hindexed⟩, hproperty⟩

/-- What some registration of the one corpus offers and teaches, one of the other does. -/
theorem Within.taught (h : Within fragments fragments') {base : Str} {P Q : Nat → Str → Prop}
    (hPQ : ∀ defIdx text, P defIdx text → Q defIdx text)
    (hbase : ∃ f ∈ fragments, ∃ registration ∈ f.2.handlerRegistrations, ∃ defIdx text,
      Offers resolve fragments index contexts sent f.1 registration defIdx base text ∧ P defIdx text) :
    ∃ f ∈ fragments', ∃ registration ∈ f.2.handlerRegistrations, ∃ defIdx text,
      Offers resolve fragments' index contexts sent f.1 registration defIdx base text ∧
        Q defIdx text := by
  obtain ⟨f, hf, registration, hr, defIdx, text, hoffers, hP⟩ := hbase
  obtain ⟨f', hf', hfile, hr'⟩ := h.registered f hf registration hr
  exact ⟨f', hf', registration, hr', defIdx, text, hfile ▸ h.offers hoffers, hPQ _ _ hP⟩

theorem Within.admittedByArgument (h : Within fragments fragments') {base : Str}
    (hbase : AdmittedByArgument resolve fragments index contexts sent base) :
    AdmittedByArgument resolve fragments' index contexts sent base :=
  h.taught (fun _ _ hadmits => hadmits) hbase

theorem Within.admittedByProperty (h : Within fragments fragments') {base : Str}
    (hbase : AdmittedByProperty resolve fragments index contexts sent base) :
    AdmittedByProperty resolve fragments' index contexts sent base :=
  h.taught (fun _ _ hbinds => h.binds hbinds) hbase

theorem Within.passesOn (h : Within fragments fragments') {S : Set Str}
    (hS : PassesOn fragments' index S) : PassesOn fragments index S := by
  intro d hd hindexed base hbase hpass hmem
  obtain ⟨d', hd', bases, hperm, rfl⟩ := h.declared d hd
  exact hS { d with bases := bases } hd' hindexed base (hperm.mem_iff.mpr hbase) hpass hmem

theorem Within.handlerBase (h : Within fragments fragments') {base : Str}
    (hbase : HandlerBase resolve fragments index contexts sent base) :
    HandlerBase resolve fragments' index contexts sent base := by
  have hrules : FullRole resolve fragments' index contexts sent
      {b | HandlerBase resolve fragments' index contexts sent b} := handlerBase_isLeast.1
  exact handlerBase_isLeast.2 ⟨hrules.seeds, fun b hb => hrules.admitted b (h.admittedByArgument hb),
    h.passesOn hrules.passesOn⟩ hbase

theorem Within.bindingBase (h : Within fragments fragments') {base : Str}
    (hbase : BindingBase resolve fragments index contexts sent base) :
    BindingBase resolve fragments' index contexts sent base := by
  have hrules : BindingRole resolve fragments' index contexts sent
      {b | BindingBase resolve fragments' index contexts sent b} := bindingBase_isLeast.1
  exact bindingBase_isLeast.2
    ⟨fun b hb => hrules.admitted b (h.admittedByProperty hb), h.passesOn hrules.passesOn⟩ hbase

end Within

/-- Two derivations came to the same sets and the same flag. -/
def SameVocabulary (a b : Harvest) : Prop :=
  (∀ base, base ∈ a.1.consumerBases ↔ base ∈ b.1.consumerBases) ∧
    (∀ base, base ∈ a.1.bindingOnlyBases ↔ base ∈ b.1.bindingOnlyBases) ∧ a.2 = b.2

theorem sameVocabulary_of_reordered (resolve : Resolver) {fragments fragments' : Fragments}
    (h : Reordered fragments fragments') (index : DefIndex) (contexts : Contexts)
    (sent : List MessageIdentity) :
    SameVocabulary (deriveConsumerBases resolve fragments index contexts sent)
      (deriveConsumerBases resolve fragments' index contexts sent) := by
  obtain ⟨hto, hfrom⟩ := h.within
  have hhandler (base : Str) : HandlerBase resolve fragments index contexts sent base ↔
      HandlerBase resolve fragments' index contexts sent base := ⟨hto.handlerBase, hfrom.handlerBase⟩
  refine ⟨fun base => ?_, fun base => ?_, ?_⟩
  · rw [mem_consumerBases_iff, mem_consumerBases_iff, hhandler]
  · rw [mem_bindingOnlyBases_iff, mem_bindingOnlyBases_iff, hhandler]
    exact and_congr_left fun _ => ⟨hto.bindingBase, hfrom.bindingBase⟩
  · -- the flag asks for some admitted base, not for the first one
    rw [Bool.eq_iff_iff]
    refine contributed_harvest.trans (Iff.trans ?_ contributed_harvest.symm)
    refine exists_congr fun base => and_congr_right fun _ => or_congr ?_ ?_
    · exact ⟨hto.admittedByArgument, hfrom.admittedByArgument⟩
    · exact ⟨hto.admittedByProperty, hfrom.admittedByProperty⟩

/-- The closing loop stops. -/
theorem loopsTo_closeOverIntermediates (fragments : Fragments) (index : DefIndex)
    (start : BusVocabulary) :
    LoopsTo (visitAll (spreadThrough index) (allDeclarations fragments)) start
      (closeOverIntermediates fragments index start) :=
  loopsTo_saturate (fun _ hadded => visitAll_lower (fun _ hd _ _ h => lacking_lt hd h) hadded)
    (Nat.lt_succ_of_le (lacking_le fragments start))

/-- **The vocabulary.** For every corpus and set of sent messages the loop stops; the full role
is the least set of its rules; the binding-only role is the least set of its own without the
full role; and both, with the flag, are the same for every order of the corpus. -/
theorem deriveConsumerBases_least (resolve : Resolver) (fragments : Fragments) (index : DefIndex)
    (contexts : Contexts) (sent : List MessageIdentity) :
    let harvested := (harvestRegistrations resolve fragments index contexts sent
      (⟨CONSUMER_BASES, []⟩, false)).1
    let derived := deriveConsumerBases resolve fragments index contexts sent
    LoopsTo (visitAll (spreadThrough index) (allDeclarations fragments)) harvested
        (closeOverIntermediates fragments index harvested) ∧
      IsLeast {S | FullRole resolve fragments index contexts sent S} {b | b ∈ derived.1.consumerBases} ∧
      (∃ B, IsLeast {S | BindingRole resolve fragments index contexts sent S} B ∧
        {b | b ∈ derived.1.bindingOnlyBases} = B \ {b | b ∈ derived.1.consumerBases}) ∧
      ∀ fragments', Reordered fragments fragments' →
        SameVocabulary derived (deriveConsumerBases resolve fragments' index contexts sent) := by
  intro harvested derived
  have hfull : {b | b ∈ derived.1.consumerBases} =
      {b | HandlerBase resolve fragments index contexts sent b} :=
    Set.ext fun b => mem_consumerBases_iff
  refine ⟨loopsTo_closeOverIntermediates .., ?_, ?_, ?_⟩
  · rw [hfull]
    exact handlerBase_isLeast
  · refine ⟨_, bindingBase_isLeast, ?_⟩
    rw [hfull]
    exact Set.ext fun b => mem_bindingOnlyBases_iff
  · intro fragments' h
    exact sameVocabulary_of_reordered resolve h index contexts sent

end Devscout.Resolve
